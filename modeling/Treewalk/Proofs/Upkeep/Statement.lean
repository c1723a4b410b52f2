/-
# Statements keep every discipline

Declarations, assignments and control flow, by induction over the tree. Loops
are followed round by round; each round makes a step, so that a loop which
has made all the rounds it may make has made as many steps. In tidy trees the
header of a loop holds nothing that could jump.

Key theorems: `Discipline.keeps_rounds`, `Discipline.keeps_stmt`,
`Discipline.keeps_execAll`.
-/
import Treewalk.Proofs.Upkeep.Expression

namespace Treewalk
namespace Discipline

variable {D : Discipline} {R : Regime} {m : Machine} {ctx : Context} {pos : Position}
  {frame : FrameId} {k : Mode}

/-! ### Declarations -/

theorem keeps_typedValue {name : String} {t : Ty} {v : Value} (ht : t.IsSized)
    (h : D.Inv m.memory) (hv : D.Val m.memory v) :
    D.Keeps R k (Eval.typedValue name t v pos) m
      fun w m' => D.Val m'.memory w ∧ t.kind.Fits w := by
  unfold Eval.typedValue
  by_cases ha : ((t.convert v).isNil || t.accepts (t.convert v)) = true
  · simp only [if_pos ha]
    refine keeps_pure h ⟨val_of_eq_or_plain (t.convert_eq v) hv, ?_⟩
    rcases Bool.or_eq_true_iff.mp ha with hn | ha
    · exact .inl (Value.isNil_iff.mp hn)
    · exact Ty.fits_of_accepts ha
  · simp only [if_neg ha]
    refine keeps_get_bind h ?_
    exact (keeps_report h).bind fun _ m' hl _ => keeps_zero ht hl.inv

/-- The first value of a variable is of its declared type, if it has one. -/
theorem keeps_firstValue {name : String} {t : Option Ty} {v : Option Value}
    (ht : ∀ type, t = some type → type.IsSized) (h : D.Inv m.memory)
    (hv : ∀ w, v = some w → D.Val m.memory w) :
    D.Keeps R k (Eval.firstValue name t v pos) m
      fun w m' => D.Val m'.memory w ∧ ∀ type, t = some type → type.kind.Fits w := by
  have htyped : ∀ {x : Eval Value} {type : Ty}, D.Keeps R k x m
      (fun w m' => D.Val m'.memory w ∧ type.kind.Fits w) → D.Keeps R k x m
      fun w m' => D.Val m'.memory w ∧ ∀ t, some type = some t → t.kind.Fits w := fun hx =>
    hx.mono fun _ _ _ hw => ⟨hw.1, fun _ ht => Option.some.inj ht ▸ hw.2⟩
  unfold Eval.firstValue
  cases t with
  | some t =>
    cases v with
    | some v => exact htyped (keeps_typedValue (ht t rfl) h (hv v rfl))
    | none => exact htyped (keeps_zero (ht t rfl) h)
  | none =>
    cases v with
    | some v => exact keeps_pure h ⟨hv v rfl, by simp⟩
    | none => exact keeps_pure h ⟨val_nil, by simp⟩

/-- The same, and nothing is declared meanwhile. -/
theorem keeps_firstValue_sparing {name : String} {t : Option Ty} {v : Option Value}
    (ht : ∀ type, t = some type → type.IsSized) (h : D.Inv m.memory)
    (hv : ∀ w, v = some w → D.Val m.memory w) :
    D.Keeps R k (Eval.firstValue name t v pos) m fun w m' =>
      (D.Val m'.memory w ∧ ∀ type, t = some type → type.kind.Fits w) ∧
        (sparing m.memory).Leads m m' :=
  (keeps_firstValue ht h hv).also (keeps_firstValue ht (.refl m.memory) fun _ _ => trivial)
    (sparing_loose _)

theorem keeps_declareVars {t : Option Ty} (ht : ∀ type, t = some type → type.IsSized) :
    ∀ (xs : List Binder) (vs : List Value) {m : Machine}, D.Home R m frame →
    (∀ v ∈ vs, D.Val m.memory v) →
    D.Keeps R k (Eval.declareVars frame t xs vs) m fun _ _ => True
  | [], _, _, h, _ => keeps_pure h.inv trivial
  | x :: xs, vs, m, h, hv => by
    have hrest : ∀ m', D.Leads m m' →
        D.Keeps R k (Eval.declareVars frame t xs vs.tail) m' fun _ _ => True := fun m' hl =>
      keeps_declareVars ht xs vs.tail (h.of_leads hl)
        fun v hm => hl.val (hv v (List.mem_of_mem_tail hm))
    unfold Eval.declareVars
    refine keeps_get_bind h.inv ?_
    by_cases hx : m.frames.hasLocal frame x.name = true
    · simp only [if_pos hx]
      exact (keeps_report h.inv).bind fun _ m' hl _ => hrest m' hl
    · simp only [if_neg hx]
      have hfree : m.frames.local? frame x.name = none :=
        Frames.local?_eq_none_iff.mpr (Bool.eq_false_iff.mpr hx)
      refine (keeps_firstValue_sparing ht h.inv
        fun w hw => hv w (List.mem_of_mem_head? hw)).bind fun v m₁ hl₁ hv₁ => ?_
      have hfree₁ := hv₁.2.free_of_sparing hfree
      have h₁ := h.of_leads hl₁
      refine (keeps_declare h₁.toReady (h₁.owns _ (by simp)) hv₁.1.1 hv₁.1.2 fun hs => ?_).bind
        fun _ m₂ hl₂ _ => hrest m₂ (hl₁.trans hl₂)
      rw [hfree₁] at hs
      cases hs

theorem keeps_declareShort {x : Binder} {v : Value} (h : D.Home R m frame)
    (hv : D.Val m.memory v) : D.Keeps R k (Eval.declareShort frame x v) m fun _ _ => True := by
  unfold Eval.declareShort
  refine keeps_get_bind h.inv ?_
  cases hl : m.frames.hasLocal frame x.name with
  | false =>
    refine keeps_declare h.toReady (h.owns _ (by simp)) hv (by simp) fun hs => ?_
    rw [Frames.local?_eq_none_iff.mpr hl] at hs
    cases hs
  | true =>
    have ho := Frames.resolve_of_hasLocal hl
    obtain ⟨s, hs⟩ := Frames.local?_of_hasLocal hl
    have hvalue : m.frames.value? frame x.name = some s.value := by
      rw [Frames.value?_eq, Frames.slot?_of_local? hs]
      rfl
    cases hc : m.frames.isConst frame x.name with
    | true => exact keeps_report h.inv
    | false =>
      simp only [hvalue, Option.getD_some]
      cases hw : ((m.frames.kind? frame x.name).getD s.value.kind).coerce v with
      | none => exact keeps_report h.inv
      | some w =>
        refine keeps_store h.inv (D.writes_name (μ := m.memory) h.inv h.frm ho hc)
          (val_of_eq_or_plain (Kind.coerce_eq hw) hv) (.inr fun owner s' ho' hs' => ?_)
        cases ho.symm.trans ho'
        cases hs.symm.trans hs'
        exact Slot.takes_of_coerce (Frames.keptKind_eq ho hs) hw

theorem keeps_declareShorts : ∀ (xs : List (Binder × Value)) {m : Machine}, D.Home R m frame →
    (∀ x ∈ xs, D.Val m.memory x.2) →
    D.Keeps R k (xs.forM fun (x, v) => Eval.declareShort frame x v) m fun _ _ => True
  | [], _, h, _ => keeps_pure h.inv trivial
  | (x, v) :: xs, m, h, hv => by
    refine (keeps_declareShort h (hv (x, v) (by simp))).bind fun _ m' hl _ => ?_
    exact keeps_declareShorts xs (h.of_leads hl) fun y hy => hl.val (hv y (by simp [hy]))

theorem keeps_values (hc : D.Calls R ctx) {es : List Expr} {count : Nat} (h : D.Ready R m frame) :
    D.Keeps R .expression (Eval.values ctx es count frame pos) m (D.GivesAll count) := by
  have hmany : ∀ es : List Expr, D.Keeps R .expression
      (if es.length = count then Expr.operands ctx es frame
        else Eval.fault (.countMismatch count es.length) pos) m (D.GivesAll count) := fun es => by
    by_cases hl : es.length = count
    · simp only [if_pos hl]
      rw [← hl]
      exact keeps_operands hc es frame h
    · simp only [if_neg hl]
      exact keeps_fault h.inv
  unfold Eval.values
  match es with
  | [] => exact hmany []
  | e :: e' :: es => exact hmany (e :: e' :: es)
  | [e] =>
    refine (keeps_raw hc e frame h).settled.bind fun v m₁ hl hv => ?_
    cases v with
    | multi vs =>
      by_cases hn : vs.length = count
      · simp only [if_pos hn]
        exact keeps_pure hl.inv ⟨hn, hv.multi⟩
      · simp only [if_neg hn]
        exact keeps_fault hl.inv
    | _ =>
      by_cases hn : count = 1
      · simp only [if_pos hn]
        exact keeps_pure hl.inv ⟨hn.symm, by simpa using hv.val rfl⟩
      · simp only [if_neg hn]
        exact keeps_fault hl.inv

theorem keeps_declaredType (hc : D.Calls R ctx) {t : Option TypeExpr} (h : D.Ready R m frame) :
    D.Keeps R .expression (Eval.declaredType ctx t frame) m
      fun t _ => ∀ type, t = some type → type.IsSized := by
  unfold Eval.declaredType
  cases t with
  | none => exact keeps_pure h.inv (by simp)
  | some t =>
    refine (keeps_type hc t frame h).bind fun type _ hl ht => keeps_pure hl.inv ?_
    simpa using ht.2

/-! ### Targets, conditions and results -/

theorem keeps_placeOf (hc : D.Calls R ctx) {target : Target} (h : D.Ready R m frame) :
    D.Keeps R .expression (Eval.placeOf ctx target frame pos) m fun p m' => D.At m'.memory p := by
  unfold Eval.placeOf
  cases target with
  | name x => exact (keeps_writableOwner h).bind fun _ _ hl hw => keeps_pure hl.inv hw
  | deref x =>
    refine (keeps_lookup h).bind fun v m₁ hl₁ hv => ?_
    exact (keeps_follow hl₁.inv hv).bind fun _ _ hl hw => keeps_pure hl.inv hw
  | index x indices =>
    refine (keeps_writableOwner h).bind fun owner m₁ hl₁ hw => ?_
    refine (keeps_path hc indices frame (h.of_leads hl₁)).bind fun path m₂ hl₂ _ => ?_
    exact keeps_element hl₂.inv (D.sees_later hl₂.later (D.sees_of_writes hw))

theorem keeps_operand (hc : D.Calls R ctx) {e : Expr} (h : D.Ready R m frame) :
    D.Keeps R .expression (e.operand ctx frame) m D.GivesOne :=
  (keeps_raw hc e frame h).one

theorem keeps_condition (hc : D.Calls R ctx) {e : Expr} (h : D.Ready R m frame) :
    D.Keeps R .expression (Eval.condition ctx e frame) m fun _ _ => True := by
  unfold Eval.condition
  refine (keeps_raw hc e frame h).settled.bind fun v m₁ hl _ => ?_
  exact keeps_ifFault hl.inv fun _ => keeps_pure hl.inv trivial

theorem keeps_loopCheck (hc : D.Calls R ctx) {e : Option Expr} (h : D.Ready R m frame) :
    D.Keeps R .expression (Eval.loopCheck ctx e pos frame) m
      fun _ m' => R.limits.Made (m.steps + 1) m' := by
  unfold Eval.loopCheck
  rw [hc.limits]
  refine (keeps_tick h.inv).bind fun _ m₁ hl₁ ht => ?_
  cases e with
  | none => exact keeps_pure hl₁.inv ht
  | some e =>
    refine (keeps_condition hc (h.of_leads hl₁)).mono fun _ m₂ hl₂ _ => ?_
    exact ht.later hl₂.settled.steps

theorem keeps_caseMatches (hc : D.Calls R ctx) {subject : Value} : ∀ (es : List Expr) {m : Machine},
    D.Ready R m frame →
    D.Keeps R .expression (Eval.caseMatches ctx subject frame es) m fun _ _ => True
  | [], _, h => keeps_pure h.inv trivial
  | e :: es, _, h => by
    refine (keeps_operand hc h).bind fun v m₁ hl₁ _ => ?_
    by_cases hv : subject.equal? v = some true
    · simp only [if_pos hv]
      exact keeps_pure hl₁.inv trivial
    · simp only [if_neg hv]
      exact keeps_caseMatches hc es (h.of_leads hl₁)

theorem keeps_returned (hc : D.Calls R ctx) {es : List Expr} (h : D.Ready R m frame) :
    D.Keeps R .expression (Eval.returned ctx es frame) m D.Gives := by
  unfold Eval.returned
  match es with
  | [] => exact keeps_pure h.inv (.inl val_nil)
  | [e] => exact (keeps_operand hc h).mono fun _ _ _ hv => .inl hv
  | e :: e' :: es =>
    refine (keeps_operands hc (e :: e' :: es) frame h).bind fun vs m₁ hl₁ hvs => ?_
    refine keeps_pure hl₁.inv (.inr ⟨vs, rfl, ?_, hvs.2⟩)
    rw [hvs.1]
    simp

/-! ### Loops -/

/-- A loop, from a round on after which `n` more may follow. -/
theorem keeps_rounds {check : Eval Bool} {body post : Eval Unit}
    (hcheck : ∀ {m}, D.Home R m frame →
      D.Keeps R .expression check m fun _ m' => R.limits.Made (m.steps + 1) m')
    (hbody : ∀ {m}, D.Home R m frame → D.Keeps R .statement body m fun _ _ => True)
    (hpost : ∀ {m}, D.Home R m frame → D.Keeps R .loop post m fun _ _ => True) :
    ∀ (n : Nat) {m : Machine}, D.Home R m frame → R.limits.Made (R.rounds - n) m →
      D.Keeps R .loop (Eval.rounds check body post n) m fun _ _ => True
  | 0, _, h, hn => keeps_signal h.inv fun _ _ => hn
  | n + 1, m, h, hn => by
    unfold Eval.rounds
    refine (hcheck h).weaken.bind fun go m₁ hl₁ ht => ?_
    cases go with
    | false => exact keeps_pure hl₁.inv trivial
    | true =>
      refine (hbody (h.of_leads hl₁)).goesOn.bind fun go m₂ hl₂ _ => ?_
      cases go with
      | false => exact keeps_pure hl₂.inv trivial
      | true =>
        have h₂ := h.of_leads (hl₁.trans hl₂)
        refine (hpost h₂).bind fun _ m₃ hl₃ _ => ?_
        have hn' := (ht.later hl₂.settled.steps).later hl₃.settled.steps
        have hle := hn.1
        exact keeps_rounds hcheck hbody hpost n (h₂.of_leads hl₃) (hn'.le (by omega))

/-- A statement with its step. -/
theorem keeps_statement (hc : D.Calls R ctx) {x : Eval Unit} (h : D.Home R m frame)
    (hx : ∀ {m}, D.Home R m frame → D.Keeps R k x m fun _ _ => True) :
    D.Keeps R k (Eval.statement ctx.config.limits pos x) m fun _ _ => True := by
  unfold Eval.statement
  rw [hc.limits]
  refine (keeps_tick h.inv).bind fun _ m₁ hl₁ _ => ?_
  exact (hx (h.of_leads hl₁)).orElseReport fun _ _ => trivial

/-! ### Statements without statements inside -/

theorem keeps_varDecl (hc : D.Calls R ctx) {names : List Binder} {type : Option TypeExpr}
    {es : List Expr} (h : D.Home R m frame) :
    D.Keeps R k ((Stmt.varDecl names type es pos).raw ctx frame) m fun _ _ => True := by
  refine (keeps_declaredType hc h.toReady).weaken.bind fun t m₁ hl₁ ht => ?_
  have h₁ := h.of_leads hl₁
  by_cases he : es.isEmpty = true
  · simp only [if_pos he]
    refine (keeps_pure (P := fun vs m' => vs = [] ∧ m' = m₁) h₁.inv ⟨rfl, rfl⟩).bind ?_
    rintro _ m' - ⟨rfl, rfl⟩
    exact keeps_declareVars ht names [] h₁ (by simp)
  · simp only [if_neg he]
    refine (keeps_values hc h₁.toReady).weaken.bind fun vs m₂ hl₂ hvs => ?_
    exact keeps_declareVars ht names vs (h₁.of_leads hl₂) hvs.2

/-- The name of a constant is free when its type and value are evaluated, and still is when it is
declared. -/
theorem keeps_constDecl (hc : D.Calls R ctx) {x : String} {type : Option TypeExpr} {e : Expr}
    (h : D.Home R m frame) :
    D.Keeps R k ((Stmt.constDecl x type e pos).raw ctx frame) m fun _ _ => True := by
  refine keeps_get_bind h.inv (keeps_ifFault h.inv fun hx => ?_)
  have hfree : m.frames.local? frame x = none :=
    Frames.local?_eq_none_iff.mpr (Bool.eq_false_iff.mpr hx)
  refine ((keeps_declaredType hc h.toReady).also
    (keeps_declaredType (hc.sparing _) (ready_sparing frame h.knows)) (sparing_loose _)).weaken.bind
      fun t m₁ hl₁ hs₁ => ?_
  have h₁ := h.of_leads hl₁
  refine ((keeps_values hc h₁.toReady).also
    (keeps_values (hc.sparing _) (ready_sparing frame h₁.knows)) (sparing_loose _)).weaken.bind
      fun vs m₂ hl₂ hvs => ?_
  have h₂ := h₁.of_leads hl₂
  refine (keeps_firstValue_sparing hs₁.1 h₂.inv
    fun w hw => hvs.1.2 w (List.mem_of_mem_head? hw)).bind fun v m₃ hl₃ hv => ?_
  have h₃ := h₂.of_leads hl₃
  refine keeps_declare h₃.toReady (h₃.owns _ (by simp)) hv.1.1 hv.1.2 fun hs => ?_
  rw [hv.2.free_of_sparing (hvs.2.free_of_sparing (hs₁.2.free_of_sparing hfree))] at hs
  cases hs

theorem keeps_shortDecl (hc : D.Calls R ctx) {names : List Binder} {es : List Expr}
    (h : D.Home R m frame) :
    D.Keeps R k ((Stmt.shortDecl names es pos).raw ctx frame) m fun _ _ => True := by
  refine keeps_get_bind h.inv (keeps_ifFault h.inv fun _ => keeps_ifFault h.inv fun _ => ?_)
  refine (keeps_values hc h.toReady).weaken.bind fun vs m₁ hl hvs => ?_
  exact keeps_declareShorts _ (h.of_leads hl) fun x hx => hvs.2 _ (List.of_mem_zip hx).2

theorem keeps_returnStmt (hc : D.Calls R ctx) {es : List Expr} (h : D.Ready R m frame) :
    D.Keeps R (.ofStmt (.returnStmt es pos)) ((Stmt.returnStmt es pos).raw ctx frame) m
      fun _ _ => True := by
  refine keeps_get_bind h.inv (keeps_unlessFault h.inv fun hr => ?_)
  refine (keeps_returned hc h).weaken.bind fun v m₁ hl₁ hv => ?_
  refine keeps_signal hl₁.inv ⟨rfl, ?_, hv⟩
  rw [SymbolTable.Raw.canReturn, hl₁.settled.scopes]
  exact hr

/-- A jump where it is allowed, which is read off the scopes. -/
theorem keeps_jump {c : Bool} {s : Signal} {f : Fault} (h : D.Inv m.memory)
    (hs : c = true → D.Stops R k m s) :
    D.Keeps R k (if c then Eval.signal s else Eval.fault f pos) m fun (_ : Unit) _ => True := by
  cases c with
  | true => exact keeps_signal h (hs rfl)
  | false => exact keeps_fault h

/-! ### The tree -/

/-- The machine in a new frame inside another. -/
theorem Home.openIn (h : D.Home R m frame) :
    D.Home R { m with frames := m.frames.openIn frame } m.frames.nextId := by
  obtain ⟨h1, h2, -⟩ := D.openIn (μ := m.memory) h.inv (.inl h.frm)
  exact ⟨⟨h1, h.knows, h2⟩, fun role _ => D.own_openIn role h.inv⟩

theorem Home.push {sc : Scope} (h : D.Home R m frame) :
    D.Home R { m with symbols := m.symbols.push sc } frame :=
  ⟨⟨h.inv, h.knows, h.frm⟩, h.owns⟩

/-- An action in a frame of its own. -/
theorem keeps_inNewFrame {α : Type} {P : α → Prop} {x : FrameId → Eval α} (h : D.Home R m frame)
    (hx : ∀ {m inner}, D.Home R m inner → D.Keeps R k (x inner) m fun a _ => P a) :
    D.Keeps R k (Eval.inFrame frame x) m fun a _ => P a :=
  keeps_inFrame h.inv (hx h.openIn) fun _ _ _ hP => hP

mutual

theorem keeps_stmt (hc : D.Calls R ctx) : ∀ (s : Stmt) (frame : FrameId) {m : Machine},
    (R.tidy → s.tidy = true) → D.Home R m frame →
    D.Keeps R (.ofStmt s) (s.raw ctx frame) m fun _ _ => True
  | .varDecl .., _, _, _, h => keeps_varDecl hc h
  | .constDecl .., _, _, _, h => keeps_constDecl hc h
  | .shortDecl .., _, _, _, h => keeps_shortDecl hc h
  | .assign target op e pos, _, _, _, h => by
    refine (keeps_placeOf hc h.toReady).bind fun p m₁ hl₁ hp => ?_
    refine (keeps_operand hc (h.of_leads hl₁).toReady).bind fun v m₂ hl₂ hv => ?_
    exact keeps_assignTo hl₂.inv (hp.later hl₂) hv
  | .step target op pos, _, _, _, h => by
    refine (keeps_placeOf hc h.toReady).bind fun p m₁ hl₁ hp => ?_
    exact keeps_stepBy hl₁.inv hp
  | .expr e pos, frame, _, _, h =>
    (keeps_raw hc e frame h.toReady).settled.bind fun _ _ hl _ => keeps_pure hl.inv trivial
  | .block body pos, frame, _, ht, h => by
    refine keeps_inScope rfl (by simp) (by simp) (keeps_inNewFrame h.push fun h => ?_)
    exact keeps_execAll hc body _ ht h
  | .ifElse branches otherwise pos, frame, _, ht, h => by
    have ht' : R.tidy → Stmt.branchesTidy branches = true ∧ Stmt.otherwiseTidy otherwise = true :=
      fun t => by simpa [Stmt.tidy] using ht t
    refine (keeps_branches hc branches frame (fun t => (ht' t).1) h).bind fun b m₁ hl₁ _ => ?_
    cases b with
    | true => exact keeps_pure hl₁.inv trivial
    | false =>
      refine keeps_inScope rfl (by simp) (by simp) ?_
      exact keeps_otherwise hc otherwise frame (fun t => (ht' t).2) (h.of_leads hl₁).push
  | .loop init check post body pos, frame, m, ht, h => by
    have ht' : R.tidy → (init.all Stmt.isSimple = true ∧ post.all Stmt.isSimple = true) ∧
        Stmt.allTidy body = true := fun t => by simpa [Stmt.tidy] using ht t
    refine keeps_inScope rfl (by simp [Mode.ofStmt, Mode.loop]) (by simp [Mode.ofStmt, Mode.loop])
      (keeps_inNewFrame h.push fun {m₁ inner} h₁ => ?_)
    refine (keeps_optional hc init inner (fun t => (ht' t).1.1) h₁).bind fun _ m₂ hl₂ _ => ?_
    refine keeps_rounds (fun h => keeps_loopCheck hc h.toReady)
      (fun h => keeps_inNewFrame h fun h => keeps_execAll hc body _ (fun t => (ht' t).2) h)
      (fun h => keeps_optional hc post inner (fun t => (ht' t).1.2) h) _ (h₁.of_leads hl₂)
      (by rw [hc.rounds, Nat.sub_self]; exact ⟨Nat.zero_le _, fun _ _ => Nat.zero_le _⟩)
  | .switch subject clauses otherwise pos, frame, _, ht, h => by
    have ht' : R.tidy → Stmt.clausesTidy clauses = true ∧ Stmt.otherwiseTidy otherwise = true :=
      fun t => by simpa [Stmt.tidy] using ht t
    refine keeps_inScope rfl (by simp [Mode.ofStmt, Mode.switch]) (by simp)
      (keeps_inNewFrame h.push fun {m₁ inner} h₁ => Keeps.untilBreak ?_)
    refine (keeps_operand hc h₁.toReady).weaken.bind fun v m₂ hl₂ _ => ?_
    refine (keeps_clauses hc v clauses false inner (fun t => (ht' t).1) (h₁.of_leads hl₂)).bind
      fun b m₃ hl₃ _ => ?_
    cases b with
    | true => exact keeps_pure hl₃.inv trivial
    | false =>
      exact keeps_otherwise hc otherwise inner (fun t => (ht' t).2)
        (h₁.of_leads (hl₂.trans hl₃))
  | .breakStmt _, _, _, _, h =>
    keeps_get_bind h.inv (keeps_jump h.inv fun hb _ => ⟨rfl, hb⟩)
  | .continueStmt _, _, _, _, h =>
    keeps_get_bind h.inv (keeps_jump h.inv fun hb _ => ⟨rfl, hb⟩)
  | .returnStmt .., _, _, _, h => keeps_returnStmt hc h.toReady
  | .func _ _, _, _, _, h => keeps_pure h.inv trivial

theorem keeps_execAll (hc : D.Calls R ctx) : ∀ (ss : List Stmt) (frame : FrameId) {m : Machine},
    (R.tidy → Stmt.allTidy ss = true) → D.Home R m frame →
    D.Keeps R .statement (Stmt.execAll ctx ss frame) m fun _ _ => True
  | [], _, _, _, h => keeps_pure h.inv trivial
  | s :: ss, frame, _, ht, h => by
    have ht' : R.tidy → s.tidy = true ∧ Stmt.allTidy ss = true := fun t => by
      simpa [Stmt.allTidy] using ht t
    refine (keeps_statement hc h fun h =>
      (keeps_stmt hc s frame (fun t => (ht' t).1) h).widen (Mode.le_statement _)).bind
        fun _ m₁ hl₁ _ => ?_
    exact keeps_execAll hc ss frame (fun t => (ht' t).2) (h.of_leads hl₁)

/-- A statement of the header of a loop: it is simple, or any jump may leave it. -/
theorem keeps_optional (hc : D.Calls R ctx) : ∀ (s? : Option Stmt) (frame : FrameId)
    {m : Machine}, (R.tidy → s?.all Stmt.isSimple = true) → D.Home R m frame →
    D.Keeps R .loop (Stmt.execOptional ctx s? frame) m fun _ _ => True
  | none, _, _, _, h => keeps_pure h.inv trivial
  | some s, frame, _, hs, h => by
    refine keeps_statement hc h fun h => ?_
    have hk := keeps_stmt hc s frame (fun t => Stmt.tidy_of_isSimple (by simpa using hs t)) h
    by_cases t : R.tidy
    · rw [Mode.ofStmt_of_isSimple (by simpa using hs t)] at hk
      exact hk.weaken
    · exact (hk.widen (Mode.le_statement _)).untidy t

theorem keeps_otherwise (hc : D.Calls R ctx) : ∀ (body : Option (List Stmt)) (frame : FrameId)
    {m : Machine}, (R.tidy → Stmt.otherwiseTidy body = true) → D.Home R m frame →
    D.Keeps R .statement (Stmt.execOtherwise ctx body frame) m fun _ _ => True
  | none, _, _, _, h => keeps_pure h.inv trivial
  | some body, _, _, ht, h => keeps_inNewFrame h fun h => keeps_execAll hc body _ ht h

theorem keeps_branches (hc : D.Calls R ctx) : ∀ (branches : List (Branch Stmt)) (frame : FrameId)
    {m : Machine}, (R.tidy → Stmt.branchesTidy branches = true) → D.Home R m frame →
    D.Keeps R .statement (Stmt.execBranches ctx branches frame) m fun _ _ => True
  | [], _, _, _, h => keeps_pure h.inv trivial
  | ⟨e, body⟩ :: rest, frame, _, ht, h => by
    have ht' : R.tidy → Stmt.allTidy body = true ∧ Stmt.branchesTidy rest = true := fun t => by
      simpa [Stmt.branchesTidy] using ht t
    refine (keeps_condition hc h.toReady).weaken.bind fun b m₁ hl₁ _ => ?_
    cases b with
    | false => exact keeps_branches hc rest frame (fun t => (ht' t).2) (h.of_leads hl₁)
    | true =>
      refine (keeps_inScope (P := fun _ => True) rfl (by simp) (by simp)
        (keeps_inNewFrame (h.of_leads hl₁).push fun h => ?_)).bind fun _ m₂ hl₂ _ => ?_
      · exact keeps_execAll hc body _ (fun t => (ht' t).1) h
      · exact keeps_pure hl₂.inv trivial

theorem keeps_clauses (hc : D.Calls R ctx) (subject : Value) : ∀ (clauses : List (Clause Stmt))
    (found : Bool) (frame : FrameId) {m : Machine}, (R.tidy → Stmt.clausesTidy clauses = true) →
    D.Home R m frame →
    D.Keeps R .statement (Stmt.execClauses ctx subject clauses found frame) m fun _ _ => True
  | [], _, _, _, _, h => keeps_pure h.inv trivial
  | ⟨es, body, _⟩ :: rest, found, frame, m, ht, h => by
    have ht' : R.tidy → Stmt.allTidy body = true ∧ Stmt.clausesTidy rest = true := fun t => by
      simpa [Stmt.clausesTidy] using ht t
    -- the body of a case that runs, and the cases behind it
    have hrun : ∀ m₁, D.Home R m₁ frame → D.Keeps R .statement (do
        Eval.inFrame frame fun inner => Stmt.execAll ctx body inner
        Stmt.execClauses ctx subject rest true frame) m₁ fun _ _ => True := fun m₁ h₁ => by
      refine (keeps_inNewFrame (P := fun _ => True) h₁ fun h =>
        keeps_execAll hc body _ (fun t => (ht' t).1) h).bind fun _ m₂ hl₂ _ => ?_
      exact keeps_clauses hc subject rest true frame (fun t => (ht' t).2) (h₁.of_leads hl₂)
    cases found with
    | true =>
      refine (keeps_pure (P := fun b m' => b = true ∧ m' = m) h.inv ⟨rfl, rfl⟩).bind ?_
      rintro _ m' - ⟨rfl, rfl⟩
      exact hrun m' h
    | false =>
      refine (keeps_caseMatches hc es h.toReady).weaken.bind fun b m₁ hl₁ _ => ?_
      have h₁ := h.of_leads hl₁
      cases b with
      | false => exact keeps_clauses hc subject rest false frame (fun t => (ht' t).2) h₁
      | true => exact hrun m₁ h₁

end

theorem keeps_exec (hc : D.Calls R ctx) {s : Stmt} (ht : R.tidy → s.tidy = true)
    (h : D.Ready R m frame) (ho : D.Owns m.memory frame := by exact fun _ _ => trivial) :
    D.Keeps R (.ofStmt s) (s.exec ctx frame) m fun _ _ => True :=
  keeps_statement hc ⟨h, ho⟩ fun h => keeps_stmt hc s frame ht h

end Discipline
end Treewalk
