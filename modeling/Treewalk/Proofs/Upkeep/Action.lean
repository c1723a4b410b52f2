/-
# Actions that keep a discipline

An action keeps a discipline if its parts do and each is given what it needs
by those before it. There is one rule for each way of putting actions
together: one after the other, going on from outcomes, and between two changes
of the machine. Of the last kind are scopes, frames and calls, and there the
rules say what becomes of the signals that leave them.

Key theorems: `Discipline.Keeps.bind`, `Discipline.Keeps.handle`,
`Discipline.Keeps.around`, `Discipline.keeps_inScope`,
`Discipline.keeps_inFrame`, `Discipline.keeps_inCall`.
-/
import Treewalk.Proofs.Discipline
import Treewalk.Proofs.Outcome

namespace Treewalk
namespace Discipline

variable {D : Discipline} {R R' : Regime} {k k' : Mode} {m m' m'' : Machine} {α β : Type}

/-! ### Rules for the parts of an action -/

section Rules

variable {x : Eval α} {P Q : α → Machine → Prop}

theorem Keeps.ends (h : D.Keeps R k x m P) (hD : D.Loose := by exact {}) :
    D.Ends R k m P (x.run m) := by
  obtain ⟨es, he⟩ := x.traced m
  exact ((h es he).of_loose hD).2

theorem Keeps.points (h : D.Keeps R k x m P) (p : Machine) (hp : x.passes m p)
    (hD : D.Loose := by exact {}) : m.Inside R.limits p ∧ D.Inv p.memory := by
  obtain ⟨es, he⟩ := x.traced m
  obtain ⟨e, hmem, rfl⟩ := (x.covers he p).mp hp
  have hpt := ((h es he).of_loose hD).1 e hmem
  exact ⟨hpt.inside, hpt.inv⟩

theorem Ends.mono {r : Outcome α} (h : D.Ends R k m P r)
    (hPQ : ∀ a m', D.Leads m m' → P a m' → Q a m') : D.Ends R k m Q r := by
  cases r with
  | ok a m' => exact ⟨h.1, hPQ a m' h.1 h.2⟩
  | error s m' => exact h

theorem Ends.leads {r : Outcome α} (h : D.Ends R k m P r) : D.Leads m r.machine := by
  cases r with
  | ok a m' => exact h.1
  | error s m' => exact h.1

theorem Ends.stops {r : Outcome α} {s : Signal} (h : D.Ends R k m P r) (hr : r = .error s m') :
    D.Stops R k m' s := by
  subst hr
  exact h.2

theorem Keeps.mono (h : D.Keeps R k x m P) (hPQ : ∀ a m', D.Leads m m' → P a m' → Q a m') :
    D.Keeps R k x m Q :=
  fun es he => (h es he).imp (fun _ hp => hp) fun hE => hE.mono hPQ

/-- What is known of the result from elsewhere. -/
theorem Keeps.and (h : D.Keeps R k x m P) (hQ : ∀ a m', x.run m = .ok a m' → Q a m') :
    D.Keeps R k x m fun a m' => P a m' ∧ Q a m' := by
  intro es he
  refine (h es he).imp (fun _ hp => hp) fun hE => ?_
  cases hr : x.run m with
  | ok a m' =>
    rw [hr] at hE
    exact ⟨hE.1, hE.2, hQ a m' hr⟩
  | error s m' => rw [hr] at hE; exact hE

/-- What a further discipline, which forbids nothing, says of the result. -/
theorem Keeps.also {D' : Discipline} {P' : α → Machine → Prop} (h : D.Keeps R k x m P)
    (h' : D'.Keeps R k x m P') (hD' : D'.Loose) :
    D.Keeps R k x m fun a m' => P a m' ∧ D'.Leads m m' := by
  refine h.and fun a m' hr => ?_
  have he := h'.ends hD'
  rw [hr] at he
  exact he.1

theorem Stops.widen {s : Signal} (h : D.Stops R k m s) (hk : k.Le k') : D.Stops R k' m s := by
  cases s with
  | broke => exact fun t => ⟨hk.1 (h t).1, (h t).2⟩
  | continued => exact fun t => ⟨hk.2.1 (h t).1, (h t).2⟩
  | returned v => exact ⟨hk.2.2 h.1, h.2⟩
  | fault f pos => trivial
  | abort a pos => trivial
  | exhausted => exact h

theorem Keeps.of_stops (h : D.Keeps R k x m P)
    (hs : ∀ s m', D.Stops R k m' s → D.Stops R k' m' s) : D.Keeps R k' x m P := by
  intro es he
  refine (h es he).imp (fun _ hp => hp) fun hE => ?_
  cases hr : x.run m with
  | ok a m' => rw [hr] at hE; exact hE
  | error s m' => rw [hr] at hE; exact ⟨hE.1, hs s m' hE.2⟩

theorem Keeps.widen (h : D.Keeps R k x m P) (hk : k.Le k') : D.Keeps R k' x m P :=
  h.of_stops fun _ _ hs => hs.widen hk

/-- What an expression does, any action may do. -/
theorem Keeps.weaken (h : D.Keeps R .expression x m P) : D.Keeps R k x m P :=
  h.widen (Mode.expression_le k)

/-- Of trees that need not be tidy, any jump may leave what hands on a `return`. -/
theorem Keeps.untidy (h : D.Keeps R .statement x m P) (ht : ¬ R.tidy) :
    D.Keeps R .loop x m P :=
  h.of_stops fun s _ hs => by
    cases s with
    | broke => exact fun t => absurd t ht
    | continued => exact fun t => absurd t ht
    | returned v => exact ⟨rfl, hs.2⟩
    | fault f pos => trivial
    | abort a pos => trivial
    | exhausted => exact hs

theorem keeps_pure {a : α} (h : D.Inv m.memory) (ha : P a m) : D.Keeps R k (pure a) m P := by
  rintro _ rfl
  exact ⟨D.past_refl _, .refl h, ha⟩

theorem Stops.vals {s : Signal} (h : D.Stops R k m s) :
    ∀ v ∈ (Event.raised s).values, D.Val m.memory v := by
  cases s with
  | returned v =>
    cases v with
    | multi vs => exact h.2.2.multi
    | _ => simpa [Event.values] using h.2.2.val rfl
  | _ => simp [Event.values]

theorem keeps_signal {s : Signal} (h : D.Inv m.memory) (hs : D.Stops R k m s) :
    D.Keeps R k (Eval.signal s : Eval α) m P := by
  rintro _ rfl -
  refine ⟨.inl (D.past_refl _), ?_, D.past_refl _, .refl h, hs⟩
  exact ⟨(Machine.Settled.refl m).inside _, (Machine.Settled.refl m).opens, h, hs.vals,
    fun he => nomatch he⟩

theorem keeps_fault {f : Fault} {pos : Position} (h : D.Inv m.memory) :
    D.Keeps R k (Eval.fault f pos : Eval α) m P :=
  keeps_signal h trivial

theorem keeps_abort {a : Abort} {pos : Position} (h : D.Inv m.memory) :
    D.Keeps R k (Eval.abort a pos : Eval α) m P :=
  keeps_signal h trivial

theorem Keeps.bind {f : α → Eval β} {T : β → Machine → Prop} (hx : D.Keeps R k x m P)
    (hf : ∀ a m', D.Leads m m' → P a m' → D.Keeps R k (f a) m' T) :
    D.Keeps R k (x >>= f) m T := by
  rintro _ ⟨es₁, es₂, h₁, h₂, rfl⟩
  refine (hx es₁ h₁).append fun hE => ?_
  cases hr : x.run m with
  | error s m' =>
    rw [hr] at hE h₂
    rw [Eval.run_bind_of_error hr, show es₂ = [] from h₂]
    exact ⟨D.past_refl _, hE⟩
  | ok a m' =>
    rw [hr] at hE h₂
    rw [Eval.run_bind_of_ok hr]
    refine (hf a m' hE.1 hE.2 es₂ h₂).imp (fun _ hp => hp.of_settled hE.1.settled) fun hE' => ?_
    cases hr' : (f a).run m' with
    | ok b m'' => rw [hr'] at hE'; exact ⟨hE.1.trans hE'.1, hE'.2⟩
    | error s m'' => rw [hr'] at hE'; exact ⟨hE.1.trans hE'.1, hE'.2⟩

/-- A check before an action, which ends in a fault where the check fails. -/
theorem keeps_ifFault {c : Prop} [Decidable c] {f : Fault} {pos : Position} {g : α → Eval β}
    {y : Eval β} {T : β → Machine → Prop} (h : D.Inv m.memory)
    (hy : ¬ c → D.Keeps R k y m T) :
    D.Keeps R k (if c then Eval.fault f pos >>= g else y) m T := by
  by_cases hc : c
  · rw [if_pos hc]
    exact (keeps_fault (P := fun _ _ => False) h).bind fun _ _ _ hF => hF.elim
  · rw [if_neg hc]
    exact hy hc

theorem keeps_unlessFault {c : Prop} [Decidable c] {f : Fault} {pos : Position}
    {g : α → Eval β} {y : Eval β} {T : β → Machine → Prop} (h : D.Inv m.memory)
    (hy : c → D.Keeps R k y m T) :
    D.Keeps R k (if c then y else Eval.fault f pos >>= g) m T := by
  rw [← ite_not]
  exact keeps_ifFault h fun hc => hy (Decidable.of_not_not hc)

/-- An action read off the machine as it is, which is a moment of its own. -/
theorem keeps_get_bind_of {f : Machine → Eval α} (h : D.Inv m.memory)
    (hf : D.Permits m.memory → D.Keeps R k (f m) m P) : D.Keeps R k (get >>= f) m P := by
  have hg : D.Keeps R k (get : Eval Machine) m
      fun a m' => a = m ∧ m' = m ∧ D.Permits m.memory := by
    rintro _ rfl ha
    exact ⟨.inl (D.past_refl _), (Leads.refl h).point, D.past_refl _, .refl h, rfl, rfl, ha.permits⟩
  refine hg.bind fun a m' _ he => ?_
  rw [he.1, he.2.1]
  exact hf he.2.2

theorem keeps_get_bind {f : Machine → Eval α} (h : D.Inv m.memory) (hf : D.Keeps R k (f m) m P) :
    D.Keeps R k (get >>= f) m P :=
  keeps_get_bind_of h fun _ => hf

/-- A change of the machine, with what is known of the moment after it. -/
theorem keeps_change {x : Eval α} {a : α} {ev : Option Event} (hr : x.run m = .ok a m')
    (ht : ∀ es, x.trace m es → es = [{ machine := m }, { machine := m', event := ev }])
    (h : D.Leads m m') (hm : D.Inv m.memory)
    (hp : D.Past m.memory m'.memory ∨ D.Disturbs { machine := m', event := ev })
    (hv : ∀ v ∈ ev.elim [] Event.values, D.Val m'.memory v)
    (ho : ∀ {f name role}, ev = some (.declared f name role) → D.Declares m'.memory f name role)
    (hP : D.Allows { machine := m', event := ev } → P a m') : D.Keeps R k x m P := by
  intro es he
  rw [ht es he, hr]
  refine fun _ => ⟨.inl (D.past_refl _), (Leads.refl hm).point, fun ha => ⟨hp, ?_, ?_⟩⟩
  · exact ⟨h.settled.inside _, h.settled.opens, h.inv, hv, ho⟩
  · exact ⟨D.past_refl _, h, hP ha⟩

theorem keeps_modifyGet {f : Machine → α × Machine} (h : D.Leads m (f m).2)
    (hm : D.Inv m.memory) (hp : D.Past m.memory (f m).2.memory) (hP : P (f m).1 (f m).2) :
    D.Keeps R k (modifyGet f : Eval α) m P :=
  keeps_change rfl (fun _ he => he) h hm (.inl hp) (by simp) (fun he => nomatch he) fun _ => hP

theorem keeps_modify {f : Machine → Machine} {P : Unit → Machine → Prop} (h : D.Leads m (f m))
    (hm : D.Inv m.memory) (hp : D.Past m.memory (f m).memory) (hP : P () (f m)) :
    D.Keeps R k (modify f : Eval Unit) m P :=
  keeps_modifyGet (f := fun m => ((), f m)) h hm hp hP

/-- An event at which nothing changes. -/
theorem keeps_note {ev : Event} {P : Unit → Machine → Prop} (h : D.Inv m.memory)
    (hv : ∀ v ∈ ev.values, D.Val m.memory v)
    (ho : ∀ {f name role}, ev = .declared f name role → D.Declares m.memory f name role)
    (hP : (ev = .combined → D.combines) → P () m) : D.Keeps R k (Eval.note ev id) m P :=
  keeps_change rfl (fun _ he => he) (.refl h) h (.inl (D.past_refl _)) hv
    (fun he => ho (Option.some.inj he)) fun ha => hP fun he => ha.combined (congrArg some he)

theorem keeps_require {a? : Option α} {f : Fault} {pos : Position} (h : D.Inv m.memory)
    (ha : ∀ a, a? = some a → P a m) : D.Keeps R k (Eval.require a? f pos) m P := by
  cases a? with
  | some a => exact keeps_pure h (ha a rfl)
  | none => exact keeps_fault h

theorem keeps_lift {ε : Type} [Coe ε Fault] {r : Except ε α} {pos : Position} (h : D.Inv m.memory)
    (ha : ∀ a, r = .ok a → P a m) : D.Keeps R k (Eval.lift r pos) m P := by
  cases r with
  | ok a => exact keeps_pure h (ha a rfl)
  | error e => exact keeps_fault h

/-- Going on from outcomes, if that leaves the memory alone. -/
theorem Keeps.handle {next : Outcome α → Outcome β} {T : β → Machine → Prop}
    (hx : D.Keeps R k x m P) (hm : ∀ r : Outcome α, (next r).machine.memory = r.machine.memory)
    (hok : ∀ a m', D.Leads m m' → P a m' → D.Ends R k' m T (next (.ok a m')))
    (herr : ∀ s m', D.Leads m m' → D.Stops R k m' s → D.Ends R k' m T (next (.error s m'))) :
    D.Keeps R k' (x.handle next) m T := by
  rintro _ ⟨es₁, h₁, rfl⟩
  refine (hx es₁ h₁).append fun hE _ => ?_
  have he : D.Ends R k' m T (next (x.run m)) := by
    cases hr : x.run m with
    | ok a m' => rw [hr] at hE; exact hok a m' hE.1 hE.2
    | error s m' => rw [hr] at hE; exact herr s m' hE.1 hE.2
  have hp : D.Past (x.run m).machine.memory (next (x.run m)).machine.memory := by
    rw [hm]
    exact D.past_refl _
  exact ⟨.inl hp, he.leads.point, D.past_refl _, he⟩

/-- An action around another: it opens something before and closes it after. -/
theorem Keeps.around {y : Eval α} {m₀ : Machine} {opened : List FrameId} {after : Machine → Machine}
    (hx : D.Keeps R' k' x m₀ P) (hrun : y.run m = Outcome.after after (x.run m₀))
    (htrace : ∀ es, y.trace m es → ∃ es', x.trace m₀ es' ∧ es = es'.map (Moment.within opened))
    (hb : D.Past m.memory m₀.memory)
    (hpoint : ∀ e, D.Point R' m₀ e → D.Point R m (e.within opened))
    (ha : ∀ m', D.Leads m₀ m' → D.Past m'.memory (after m').memory)
    (hok : ∀ a m', D.Leads m₀ m' → P a m' → D.Leads m (after m') ∧ Q a (after m'))
    (herr : ∀ s m', D.Leads m₀ m' → D.Stops R' k' m' s →
      D.Leads m (after m') ∧ D.Stops R k (after m') s) :
    D.Keeps R k y m Q := by
  intro es he
  obtain ⟨es', he', rfl⟩ := htrace es he
  rw [hrun]
  refine Follows.of_past ((hx es' he').within hpoint fun hE => ?_) hb
  cases hr : x.run m₀ with
  | ok a m' => rw [hr] at hE; exact ⟨ha m' hE.1, hok a m' hE.1 hE.2⟩
  | error s m' => rw [hr] at hE; exact ⟨ha m' hE.1, herr s m' hE.1 hE.2⟩

end Rules

/-! ### Reports and steps -/

theorem keeps_report {f : Fault} {pos : Position} (h : D.Inv m.memory) :
    D.Keeps R k (Eval.report f pos) m fun _ _ => True :=
  keeps_modify (.of_memory_eq h (.of_eq rfl rfl rfl (Nat.le_refl _) rfl) rfl) h (D.past_refl _)
    trivial

/-- Where elements of another type are forbidden, none is ever reported. -/
theorem keeps_reportElement {expected found : String} {pos : Position} (h : D.Inv m.memory) :
    D.Keeps R k (Eval.report (.elementType expected found) pos) m fun _ _ => D.mixes := by
  refine keeps_change rfl (fun _ he => he)
    (.of_memory_eq h (.of_eq rfl rfl rfl (Nat.le_refl _) rfl) rfl) h (.inl (D.past_refl _))
    (by simp)
    (fun he => nomatch he) fun ha => ha.mixed.resolve_right fun hu => ?_
  exact hu expected found pos (by simp [Machine.report, Machine.record])

theorem keeps_tick {pos : Position} (h : D.Inv m.memory) :
    D.Keeps R k (Eval.tick R.limits pos) m fun _ m' => R.limits.Made (m.steps + 1) m' := by
  have hl : D.Leads m { m with steps := m.steps + 1 } :=
    .of_memory_eq h (.of_eq rfl rfl rfl (Nat.le_succ _) rfl) rfl
  unfold Eval.tick
  refine (keeps_modify (P := fun _ m' => m'.steps = m.steps + 1) hl h (D.past_refl _) rfl).bind ?_
  intro _ m' hl' hs
  cases hmax : R.limits.maxSteps with
  | none => exact keeps_pure hl'.inv ⟨Nat.le_of_eq hs.symm, by simp [hmax]⟩
  | some max =>
    refine keeps_get_bind hl'.inv ?_
    by_cases hlt : max < m'.steps
    · simp only [if_pos hlt]
      exact keeps_abort hl'.inv
    · simp only [if_neg hlt]
      refine keeps_pure hl'.inv ⟨Nat.le_of_eq hs.symm, fun max' h' => ?_⟩
      cases hmax.symm.trans h'
      omega

theorem Keeps.orElseReport {x : Eval α} {a : α} {P : α → Machine → Prop} (h : D.Keeps R k x m P)
    (ha : ∀ m', D.Leads m m' → P a m') : D.Keeps R k (Eval.orElseReport x a) m P := by
  refine h.handle (fun r => ?_) (fun b m' hl hP => ⟨hl, hP⟩) fun s m' hl hs => ?_
  · split <;> rfl
  cases s with
  | fault f pos =>
    have hr : D.Leads m' (m'.report f pos) :=
      .of_memory_eq hl.inv (.of_eq rfl rfl rfl (Nat.le_refl _) rfl) rfl
    exact ⟨hl.trans hr, ha _ (hl.trans hr)⟩
  | broke => exact ⟨hl, hs⟩
  | continued => exact ⟨hl, hs⟩
  | returned v => exact ⟨hl, hs⟩
  | abort a pos => exact ⟨hl, hs⟩
  | exhausted => exact ⟨hl, hs⟩

/-- What an expression gives. -/
abbrev Gives (D : Discipline) : Value → Machine → Prop := fun v m => D.Res m.memory v

/-- What an expression with one value gives. -/
abbrev GivesOne (D : Discipline) : Value → Machine → Prop := fun v m => D.Val m.memory v

theorem Keeps.settled {x : Eval Value} (h : D.Keeps R k x m D.Gives) :
    D.Keeps R k (Eval.settled x) m D.Gives :=
  h.orElseReport fun _ _ => .inl val_nil

theorem keeps_single {pos : Position} {v : Value} (h : D.Inv m.memory) (hv : D.Res m.memory v) :
    D.Keeps R k (Eval.single pos v) m D.GivesOne := by
  unfold Eval.single
  by_cases hm : v.isMulti = true
  · simp only [if_pos hm]
    exact keeps_fault h
  · simp only [if_neg hm]
    exact keeps_pure h (hv.val (by simpa using hm))

theorem Keeps.one {pos : Position} {x : Eval Value} (h : D.Keeps R k x m D.Gives) :
    D.Keeps R k (Eval.one pos x) m D.GivesOne :=
  h.settled.bind fun _ _ hl hv => keeps_single hl.inv hv

/-! ### What loops, switches and calls take up -/

/-- A loop goes on after `continue` and ends with `break`. -/
theorem Keeps.goesOn {x : Eval Unit} (h : D.Keeps R .statement x m fun _ _ => True) :
    D.Keeps R .loop (Eval.goesOn x) m fun _ _ => True := by
  refine h.handle (fun r => ?_) (fun _ m' hl _ => ⟨hl, trivial⟩) fun s m' hl hs => ?_
  · split <;> rfl
  cases s with
  | broke => exact ⟨hl, trivial⟩
  | continued => exact ⟨hl, trivial⟩
  | returned v => exact ⟨hl, rfl, hs.2⟩
  | fault f pos => exact ⟨hl, trivial⟩
  | abort a pos => exact ⟨hl, trivial⟩
  | exhausted => exact ⟨hl, hs⟩

theorem Keeps.untilBreak {x : Eval Unit} (h : D.Keeps R .statement x m fun _ _ => True) :
    D.Keeps R .switch (Eval.untilBreak x) m fun _ _ => True := by
  refine h.handle (fun r => ?_) (fun _ m' hl _ => ⟨hl, trivial⟩) fun s m' hl hs => ?_
  · split <;> rfl
  cases s with
  | broke => exact ⟨hl, trivial⟩
  | continued => exact ⟨hl, fun t => ⟨rfl, (hs t).2⟩⟩
  | returned v => exact ⟨hl, rfl, hs.2⟩
  | fault f pos => exact ⟨hl, trivial⟩
  | abort a pos => exact ⟨hl, trivial⟩
  | exhausted => exact ⟨hl, hs⟩

theorem Keeps.returnValue {x : Eval Unit} (h : D.Keeps R .statement x m fun _ _ => True) :
    D.Keeps R .body (Eval.returnValue x) m D.Gives := by
  refine h.handle (fun r => ?_) (fun _ m' hl _ => ⟨hl, .inl val_nil⟩) fun s m' hl hs => ?_
  · split <;> rfl
  cases s with
  | broke => exact ⟨hl, fun t => ⟨rfl, (hs t).2⟩⟩
  | continued => exact ⟨hl, fun t => ⟨rfl, (hs t).2⟩⟩
  | returned v => exact ⟨hl, hs.2.2⟩
  | fault f pos => exact ⟨hl, trivial⟩
  | abort a pos => exact ⟨hl, trivial⟩
  | exhausted => exact ⟨hl, hs⟩

/-! ### Scopes, frames and calls -/

theorem Stops.of_memory_eq {s : Signal} (h : D.Stops R k m s)
    (hs : m'.symbols.scopes = m.symbols.scopes) (hd : m'.depth = m.depth)
    (ht : m.steps ≤ m'.steps) (hv : ∀ v, D.Val m.memory v → D.Val m'.memory v) :
    D.Stops R k m' s := by
  cases s with
  | broke => simpa [Stops, SymbolTable.Raw.canBreak, hs] using h
  | continued => simpa [Stops, SymbolTable.Raw.canContinue, hs] using h
  | returned v =>
    obtain ⟨h1, h2, h3⟩ := h
    exact ⟨h1, by simpa [SymbolTable.Raw.canReturn, hs] using h2, h3.imp hv⟩
  | fault f pos => trivial
  | abort a pos => trivial
  | exhausted =>
    intro h1 h2
    rw [hd] at h1 h2
    exact (h h1 h2).later ht

/-- A frame that is opened and closed again leaves those that there were. -/
theorem live_close {fs gs : Frames} {parent : FrameId}
    (h : ∀ f, gs.isLive f = (fs.openIn parent).isLive f) (f : FrameId) :
    (gs.close fs.nextId).isLive f = fs.isLive f := by
  rw [Bool.eq_iff_iff, Frames.isLive_close, h, Frames.isLive_openIn]
  constructor
  · rintro ⟨hf | hf, hne⟩
    · exact hf
    · exact absurd hf hne
  · intro hf
    exact ⟨.inl hf, Nat.ne_of_lt (Frames.lt_nextId_of_isLive hf)⟩

/-- A frame around an action. -/
theorem keeps_inFrame {parent : FrameId} {x : FrameId → Eval α} {P Q : α → Machine → Prop}
    (h : D.Inv m.memory)
    (hx : D.Keeps R k (x m.frames.nextId) { m with frames := m.frames.openIn parent } P)
    (hPQ : ∀ a m', (∀ v, D.Val m'.memory v → D.Val (m'.memory.close m.frames.nextId) v) →
      P a m' → Q a { m' with frames := m'.frames.close m.frames.nextId }) :
    D.Keeps R k (Eval.inFrame parent x) m Q := by
  unfold Eval.inFrame
  refine keeps_get_bind h ?_
  have hclose : ∀ m', D.Leads { m with frames := m.frames.openIn parent } m' →
      D.Leads m { m' with frames := m'.frames.close m.frames.nextId } ∧
        ∀ v, D.Val m'.memory v →
          D.Val (Memory.close m'.memory m.frames.nextId) v := fun m' hl => by
    obtain ⟨h1, h2, h3⟩ := D.close (μ := m.memory) h hl.later hl.inv
    refine ⟨⟨⟨hl.settled.scopes, hl.settled.depth, hl.settled.functions, hl.settled.steps, ?_⟩,
      h1, h2⟩, h3⟩
    exact live_close hl.settled.live
  refine hx.around (Eval.run_bracket ..) (fun _ he => he) (D.past_openIn parent h) (fun e he => ?_)
    (fun m' hl => D.past_close _ hl.inv) (fun a m' hl hP => ?_) fun s m' hl hs => ?_
  · exact ⟨⟨he.inside.scopes, he.inside.depth, he.inside.functions⟩, he.opens.within, he.inv,
      he.vals,
      he.declares⟩
  · obtain ⟨h1, h2⟩ := hclose m' hl
    exact ⟨h1, hPQ a m' h2 hP⟩
  · obtain ⟨h1, h2⟩ := hclose m' hl
    exact ⟨h1, hs.of_memory_eq rfl rfl (Nat.le_refl _) h2⟩

/-- What may leave an action inside a scope may leave the scope. -/
theorem Stops.pop {sc : Scope} {t : SymbolTable} {s : Signal} (h : D.Stops R k m s)
    (hm : m.symbols.scopes = sc :: t.scopes) (hf : sc.isFunction = false)
    (hb : k.breaks = true → sc ≠ .loop ∧ sc ≠ .switch) (hc : k.continues = true → sc ≠ .loop) :
    D.Stops R k { m with symbols := m.symbols.pop } s := by
  have hpop := SymbolTable.scopes_pop hm
  cases s with
  | broke =>
    intro t
    obtain ⟨h1, h2⟩ := h t
    obtain ⟨n1, n2⟩ := hb h1
    refine ⟨h1, ?_⟩
    simpa [SymbolTable.Raw.canBreak, SymbolTable.Raw.encloses, hpop, hm, hf, n1, n2] using h2
  | continued =>
    intro t
    obtain ⟨h1, h2⟩ := h t
    refine ⟨h1, ?_⟩
    simpa [SymbolTable.Raw.canContinue, SymbolTable.Raw.encloses, hpop, hm, hf, hc h1] using h2
  | returned v =>
    obtain ⟨h1, h2, h3⟩ := h
    refine ⟨h1, ?_, h3⟩
    simpa [SymbolTable.Raw.canReturn, SymbolTable.Raw.encloses, hpop, hm, hf] using h2
  | fault f pos => trivial
  | abort a pos => trivial
  | exhausted => exact h

/-- A scope around an action. -/
theorem keeps_inScope {sc : Scope} {x : Eval α} {P : α → Prop} (hf : sc.isFunction = false)
    (hb : k.breaks = true → sc ≠ .loop ∧ sc ≠ .switch) (hc : k.continues = true → sc ≠ .loop)
    (hx : D.Keeps R k x { m with symbols := m.symbols.push sc } fun a _ => P a) :
    D.Keeps R k (Eval.inScope sc x) m fun a _ => P a := by
  have hpop : ∀ m', D.Leads { m with symbols := m.symbols.push sc } m' →
      D.Leads m { m' with symbols := m'.symbols.pop } := fun m' hl =>
    ⟨⟨SymbolTable.scopes_pop hl.settled.scopes, hl.settled.depth, hl.settled.functions,
      hl.settled.steps, hl.settled.live⟩, hl.inv, hl.later⟩
  refine hx.around (Eval.run_bracket ..) (fun _ he => he) (D.past_refl _) (fun e he => ?_)
    (fun m' _ => D.past_refl _) (fun a m' hl hP => ⟨hpop m' hl, hP⟩)
    fun s m' hl hs => ⟨hpop m' hl, hs.pop hl.settled.scopes hf hb hc⟩
  obtain ⟨inner, h1, h2⟩ := he.inside.scopes
  refine ⟨⟨⟨inner ++ [sc], ?_, ?_⟩, he.inside.depth, he.inside.functions⟩, he.opens.within_nil rfl,
    he.inv, he.vals, he.declares⟩
  · simp [Moment.within, h1, SymbolTable.push, SymbolTable.Raw.push]
  · simp [Moment.within, h2, hf]

/-- What may leave the body of a call may leave the call. Neither `break` nor `continue` does: the
scope of the function hides the loops around the call. -/
theorem Stops.call {name : String} {S : List Scope} {d : Nat} {s : Signal}
    (h : D.Stops R .body m s) (hm : m.symbols.scopes = .function name :: S)
    (hd : m.depth = d + 1) (hmax : d < R.limits.maxDepth) :
    D.Stops R.above .expression
      { m with symbols := m.symbols.pop, depth := m.depth - 1 } s := by
  cases s with
  | broke =>
    intro t
    have hb := (h t).2
    simp [SymbolTable.Raw.canBreak, hm, SymbolTable.Raw.encloses, Scope.isFunction] at hb
  | continued =>
    intro t
    have hb := (h t).2
    simp [SymbolTable.Raw.canContinue, hm, SymbolTable.Raw.encloses, Scope.isFunction] at hb
  | returned v => exact absurd h.1 (by simp [Mode.body])
  | fault f pos => trivial
  | abort a pos => trivial
  | exhausted =>
    intro h1 h2
    simp only [Regime.above] at h1 h2
    exact h (by omega) (by omega)

/-- A call around an action, which has its result already. -/
theorem keeps_inCall {name : String} {x : Eval Value} (hd : m.depth < R.limits.maxDepth)
    (hx : D.Keeps R .body x (m.called name) D.Gives) :
    D.Keeps R.above .expression (Eval.inScope (.function name) (Eval.inCall x)) m D.Gives := by
  have hback : ∀ m', D.Leads (m.called name) m' →
      D.Leads m { m' with symbols := m'.symbols.pop, depth := m'.depth - 1 } := fun m' hl =>
    ⟨⟨SymbolTable.scopes_pop hl.settled.scopes, by simp [hl.settled.depth, Machine.called],
      hl.settled.functions, hl.settled.steps, hl.settled.live⟩, hl.inv, hl.later⟩
  have hrun : (Eval.inScope (.function name) (Eval.inCall x)).run m =
      Outcome.after (fun m' => { m' with symbols := m'.symbols.pop, depth := m'.depth - 1 })
        (x.run (m.called name)) := by
    unfold Eval.inScope Eval.inCall
    rw [Eval.run_bracket, Eval.run_bracket, Outcome.after_after]
    rfl
  have htrace : ∀ es, (Eval.inScope (.function name) (Eval.inCall x)).trace m es →
      ∃ es', x.trace (m.called name) es' ∧ es = es'.map (Moment.within []) := by
    rintro _ ⟨_, ⟨es', he', rfl⟩, rfl⟩
    exact ⟨es', he', by simp [Moment.within]⟩
  refine hx.around hrun htrace (D.past_refl _) (fun e he => ?_)
    (fun m' _ => D.past_refl _) (fun a m' hl hP => ⟨hback m' hl, hP⟩)
    fun s m' hl hs => ⟨hback m' hl, hs.call hl.settled.scopes hl.settled.depth hd⟩
  obtain ⟨inner, h1, h2⟩ := he.inside.scopes
  have h3 := he.inside.depth
  simp only [Machine.called] at h1 h2 h3
  refine ⟨⟨⟨inner ++ [.function name], ?_, ?_⟩, ?_, he.inside.functions⟩, he.opens.within_nil rfl,
    he.inv, he.vals, he.declares⟩
  · simp [Moment.within, h1, SymbolTable.push, SymbolTable.Raw.push]
  · simp only [Moment.within, h2, List.countP_append, List.countP_singleton, Scope.isFunction,
      if_true]
    omega
  · simp only [Moment.within, Regime.above]
    omega

end Discipline
end Treewalk
