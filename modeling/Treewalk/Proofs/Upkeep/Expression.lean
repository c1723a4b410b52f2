/-
# Expressions keep every discipline

By induction over the tree: what a function of the program does is known from
`Discipline.Calls`, all else from the actions an expression is made of. The
value of an expression may be held, or is a list of several that may be.

Key definitions: `Discipline.Calls`.
Key theorems: `Discipline.keeps_raw`, `Discipline.keeps_operands`,
`Discipline.keeps_type`.
-/
import Treewalk.Proofs.Upkeep.Heap
import Treewalk.Proofs.Upkeep.Sparing

namespace Treewalk

theorem Builtin.isPlain_run {b : Builtin} {time : String} {h : Heap} {args : List Value}
    {out : Array String} {r : Value × Array String} (hr : b.run time h args out = .ok r) :
    r.1.isPlain = true := by
  have hlen : ∀ v, (Builtin.lenOf h v).isPlain = true := fun v => by cases v <;> rfl
  have hpart : ∀ s i n, (Builtin.part s i n).isPlain = true := fun s i n => by
    unfold Builtin.part
    split <;> rfl
  have hsub : ∀ v, Builtin.substrOf args = .ok v → v.isPlain = true := fun v hv => by
    unfold Builtin.substrOf at hv
    split at hv
    · cases hv; exact hpart _ _ _
    all_goals cases hv
  unfold Builtin.run at hr
  split at hr
  case h_2 => cases hr; exact hlen _
  case h_4 =>
    cases hs : Builtin.substrOf _ with
    | error e => rw [hs] at hr; cases hr
    | ok v => rw [hs] at hr; cases hr; exact hsub v hs
  all_goals cases hr
  all_goals rfl

namespace Discipline

/-- What calling a function may do, in the context of a regime. -/
structure Calls (D : Discipline) (R : Regime) (ctx : Context) : Prop where
  limits : ctx.config.limits = R.limits
  rounds : ctx.rounds = R.rounds
  call : ∀ {m : Machine} (func : FuncDecl) (args : List Value) (pos : Position),
    D.Inv m.memory → R.Knows m → (R.tidy → func.tidy = true) →
    (∀ v ∈ args, D.Val m.memory v) →
    D.Keeps R .expression (ctx.call func args pos) m D.Gives
  /-- Whatever the discipline, nothing is declared in the frames of the caller. -/
  spares : ∀ {base : Memory} {m : Machine} (func : FuncDecl) (args : List Value) (pos : Position),
    base.Spares m.memory → R.Knows m → (R.tidy → func.tidy = true) →
    (sparing base).Keeps R .expression (ctx.call func args pos) m (sparing base).Gives

variable {D : Discipline} {R : Regime} {m : Machine} {ctx : Context} {pos : Position}
  {frame : FrameId} {k : Mode}

theorem Calls.sparing (hc : D.Calls R ctx) (base : Memory) : (sparing base).Calls R ctx :=
  ⟨hc.limits, hc.rounds, fun func args pos h hk ht _ => hc.spares func args pos h hk ht, hc.spares⟩

theorem keeps_addressOf {name : String} (h : D.Ready R m frame) :
    D.Keeps R k (Eval.addressOf name frame pos) m D.GivesOne := by
  unfold Eval.addressOf
  refine keeps_get_bind_of h.inv fun hp => ?_
  refine (keeps_require (P := fun owner m' => m' = m ∧ m.frames.resolve frame name = some owner)
    h.inv fun _ ho => ⟨rfl, ho⟩).bind ?_
  rintro owner m' - ⟨rfl, ho⟩
  refine keeps_ifFault h.inv fun hc => ?_
  have hc' : m'.frames.isConst owner name = false := by simpa using hc
  exact keeps_pure h.inv (D.val_address (μ := m'.memory) h.inv hp h.frm ho hc')

theorem keeps_deref {label : String} {v : Value} (h : D.Inv m.memory) (hv : D.Val m.memory v) :
    D.Keeps R k (Eval.deref label v pos) m D.GivesOne :=
  (keeps_follow h hv).bind fun _ _ hl hx => keeps_lookupVar hl.inv (D.sees_of_writes hx)

theorem keeps_index {x : Variable} {path : List Int} (h : D.Inv m.memory)
    (hx : D.Sees m.memory x) : D.Keeps R k (Eval.index x path pos) m D.GivesOne :=
  (keeps_element h hx).bind fun _ _ hl hp => keeps_read hl.inv hp

theorem keeps_runBuiltin {b : Builtin} {time : String} {args : List Value} (h : D.Inv m.memory) :
    D.Keeps R k (Eval.runBuiltin b time args pos) m D.GivesOne := by
  unfold Eval.runBuiltin
  refine keeps_get_bind h ?_
  refine (keeps_lift (P := fun r m' => m' = m ∧ r.1.isPlain = true) h
    fun r hr => ⟨rfl, Builtin.isPlain_run hr⟩).bind ?_
  rintro ⟨v, printed⟩ m' - ⟨rfl, hv⟩
  refine (keeps_modify (P := fun _ _ => True) ?_ h (D.past_refl _) trivial).bind
    fun _ m₂ hl _ => ?_
  · exact .of_memory_eq h (.of_eq rfl rfl rfl (Nat.le_refl _) rfl) rfl
  · exact keeps_pure hl.inv (D.val_plain hv)

theorem keeps_arraySize {v : Value} (h : D.Inv m.memory) :
    D.Keeps R k (Eval.arraySize v pos) m fun n _ => n ≤ maxSize := by
  unfold Eval.arraySize
  cases v with
  | int n =>
    by_cases hn : n.toInt < 0
    · simp only [if_pos hn]; exact keeps_fault h
    · simp only [if_neg hn]; exact keeps_pure h (toNat_le_maxSize n)
  | _ => exact keeps_fault h

theorem keeps_arrayItem {elem : Ty} {v : Value} (h : D.Inv m.memory) (hv : D.Val m.memory v) :
    D.Keeps R k (Eval.arrayItem elem v pos) m fun w m' => D.Item elem m'.memory w := by
  have hv' : D.Val m.memory (elem.convert v) := val_of_eq_or_plain (elem.convert_eq v) hv
  unfold Eval.arrayItem
  by_cases ha : elem.accepts (elem.convert v) = true
  · simp only [if_pos ha]
    exact keeps_pure h ⟨hv', .inr (Ty.fits_of_accepts ha)⟩
  · simp only [if_neg ha]
    refine keeps_get_bind h ?_
    exact (keeps_reportElement h).bind fun _ m' hl hm => keeps_pure hl.inv ⟨hl.val hv', .inl hm⟩

theorem Ready.func {callee : String} {func : FuncDecl} (h : D.Ready R m frame)
    (hf : m.functions.lookup callee = some func) : R.tidy → func.tidy = true :=
  fun t => h.knows t callee func hf

/-! ### The tree -/

/-- Several values, each of which may be held. -/
abbrev GivesAll (D : Discipline) (n : Nat) : List Value → Machine → Prop :=
  fun vs m => vs.length = n ∧ ∀ v ∈ vs, D.Val m.memory v

theorem GivesAll.cons {m' : Machine} {n : Nat} {v : Value} {vs : List Value} (hl : D.Leads m m')
    (hv : D.Val m.memory v) (hvs : D.GivesAll n vs m') : D.GivesAll (n + 1) (v :: vs) m' := by
  refine ⟨by simp [hvs.1], fun w hw => ?_⟩
  rcases List.mem_cons.mp hw with rfl | hw
  · exact hl.val hv
  · exact hvs.2 w hw

theorem items_push {m' : Machine} {elem : Ty} {done : Array Value} {v : Value} (hl : D.Leads m m')
    (hd : ∀ w ∈ done, D.Item elem m.memory w) (hv : D.Item elem m'.memory v) :
    ∀ w ∈ done.push v, D.Item elem m'.memory w := by
  intro w hw
  rcases Array.mem_push.mp hw with hw | rfl
  · exact ⟨hl.val (hd w hw).val, (hd w hw).fits⟩
  · exact hv

theorem keeps_passed {args : List Value} (h : D.Inv m.memory) (hv : ∀ v ∈ args, D.Val m.memory v) :
    D.Keeps R k (Eval.note (.passed args) id) m fun _ m' => m' = m :=
  keeps_note h hv (by simp) fun _ => rfl

mutual

theorem keeps_raw (hc : D.Calls R ctx) : ∀ (e : Expr) (frame : FrameId) {m : Machine},
    D.Ready R m frame → D.Keeps R .expression (e.raw ctx frame) m D.Gives
  | .int text pos, _, _, h => by
    refine keeps_require h.inv fun v hv => ?_
    obtain ⟨n, -, rfl⟩ := Option.map_eq_some_iff.mp hv
    exact .inl (D.val_plain rfl)
  | .float text pos, _, _, h => by
    refine keeps_require h.inv fun v hv => ?_
    obtain ⟨n, -, rfl⟩ := Option.map_eq_some_iff.mp hv
    exact .inl (D.val_plain rfl)
  | .str raw _, _, _, h => keeps_pure h.inv (.inl (D.val_plain rfl))
  | .rune raw _, _, _, h => keeps_pure h.inv (.inl (D.val_plain rfl))
  | .bool value _, _, _, h => keeps_pure h.inv (.inl (D.val_plain rfl))
  | .nil _, _, _, h => keeps_pure h.inv (.inl val_nil)
  | .name x pos, frame, _, h => (keeps_lookup h).mono fun _ _ _ hv => .inl hv
  | .binary op lhs rhs pos, frame, _, h => by
    refine (keeps_raw hc lhs frame h).one.bind fun v m₁ hl₁ hv => ?_
    refine (keeps_raw hc rhs frame (h.of_leads hl₁)).one.bind fun w m₂ hl₂ hw => ?_
    exact keeps_lift hl₂.inv fun u hu => .inl (D.val_plain (Value.isPlain_apply hu))
  | .logical op lhs rhs _, frame, _, h => by
    refine (keeps_raw hc lhs frame h).one.bind fun v m₁ hl₁ hv => ?_
    by_cases hd : op.decidedBy v.truthy = true
    · simp only [if_pos hd]
      exact keeps_pure hl₁.inv (.inl (D.val_plain rfl))
    · simp only [if_neg hd]
      refine (keeps_raw hc rhs frame (h.of_leads hl₁)).one.bind fun w m₂ hl₂ hw => ?_
      exact keeps_pure hl₂.inv (.inl (D.val_plain rfl))
  | .unary op operand _, frame, _, h => by
    refine (keeps_raw hc operand frame h).one.bind fun v m₁ hl₁ hv => ?_
    cases op with
    | neg => exact keeps_pure hl₁.inv (.inl (D.val_plain v.isPlain_negate))
    | not => exact keeps_pure hl₁.inv (.inl (D.val_plain rfl))
  | .addressOf x pos, frame, _, h => (keeps_addressOf h).mono fun _ _ _ hv => .inl hv
  | .deref operand pos, frame, _, h => by
    refine (keeps_raw hc operand frame h).one.bind fun v m₁ hl₁ hv => ?_
    exact (keeps_deref hl₁.inv hv).mono fun _ _ _ hv => .inl hv
  | .call callee args pos, frame, m, h => by
    refine keeps_get_bind h.inv ?_
    cases hf : m.functions.lookup callee with
    | some func =>
      refine (keeps_arguments hc args frame h).bind fun vs m₁ hl₁ hvs => ?_
      refine (keeps_passed hl₁.inv hvs).bind ?_
      rintro _ m₂ - rfl
      exact hc.call func vs pos hl₁.inv (h.of_leads hl₁).knows (h.func hf) hvs
    | none =>
      refine (keeps_require (P := fun _ m' => m' = m) h.inv fun _ _ => rfl).bind ?_
      rintro b m' - rfl
      refine (keeps_arguments hc args frame h).bind fun vs m₁ hl₁ hvs => ?_
      refine (keeps_passed hl₁.inv hvs).bind ?_
      rintro _ m₂ - rfl
      exact (keeps_runBuiltin hl₁.inv).mono fun _ _ _ hv => .inl hv
  | .index x indices pos, frame, m, h => by
    refine keeps_get_bind h.inv ?_
    refine (keeps_require (P := fun owner m' => D.Sees m'.memory ⟨owner, x⟩) h.inv
      fun owner ho => D.sees_name (μ := m.memory) h.inv h.frm ho).bind fun owner m₁ hl₁ hs => ?_
    refine (keeps_path hc indices frame (h.of_leads hl₁)).bind fun path m₂ hl₂ _ => ?_
    exact (keeps_index hl₂.inv (D.sees_later hl₂.later hs)).mono fun _ _ _ hv => .inl hv
  | .array type elements pos, frame, _, h => by
    refine (keeps_type hc type frame h).bind fun t m₁ hl₁ ht => ?_
    cases t with
    | array size elem =>
      refine (keeps_items hc elem elements frame #[] ht.2.2 (h.of_leads hl₁) (by simp)).bind
        fun items m₂ hl₂ hi => ?_
      exact (keeps_newArray ht.2 hl₂.inv hi).mono fun _ _ _ hv => .inl hv.1
    | _ => exact keeps_fault hl₁.inv
  | .elements _ pos, _, _, h => keeps_fault h.inv

theorem keeps_operands (hc : D.Calls R ctx) : ∀ (es : List Expr) (frame : FrameId) {m : Machine},
    D.Ready R m frame → D.Keeps R .expression (Expr.operands ctx es frame) m (D.GivesAll es.length)
  | [], _, _, h => keeps_pure h.inv ⟨rfl, by simp⟩
  | e :: es, frame, _, h => by
    refine (keeps_raw hc e frame h).one.bind fun v m₁ hl₁ hv => ?_
    refine (keeps_operands hc es frame (h.of_leads hl₁)).bind fun vs m₂ hl₂ hvs => ?_
    exact keeps_pure hl₂.inv (.cons hl₂ hv hvs)

theorem keeps_arguments (hc : D.Calls R ctx) : ∀ (es : List Expr) (frame : FrameId) {m : Machine},
    D.Ready R m frame → D.Keeps R .expression (Expr.arguments ctx es frame) m
      fun vs m' => ∀ v ∈ vs, D.Val m'.memory v
  | [], _, _, h => keeps_pure h.inv (by simp)
  | [e], frame, _, h => by
    refine (keeps_raw hc e frame h).settled.bind fun v m₁ hl₁ hv => ?_
    cases v with
    | multi vs => exact keeps_pure hl₁.inv hv.multi
    | _ => exact keeps_pure hl₁.inv (by simpa using hv.val rfl)
  | e :: e' :: es, frame, _, h => by
    refine (keeps_raw hc e frame h).one.bind fun v m₁ hl₁ hv => ?_
    refine (keeps_operands hc (e' :: es) frame (h.of_leads hl₁)).bind fun vs m₂ hl₂ hvs => ?_
    exact keeps_pure hl₂.inv (GivesAll.cons hl₂ hv hvs).2

theorem keeps_path (hc : D.Calls R ctx) : ∀ (es : List Expr) (frame : FrameId) {m : Machine},
    D.Ready R m frame → D.Keeps R .expression (Expr.path ctx es frame) m fun _ _ => True
  | [], _, _, h => keeps_pure h.inv trivial
  | e :: es, frame, _, h => by
    refine (keeps_raw hc e frame h).one.bind fun v m₁ hl₁ _ => ?_
    refine (keeps_lift (P := fun _ _ => True) hl₁.inv fun _ _ => trivial).bind
      fun i m₂ hl₂ _ => ?_
    refine (keeps_path hc es frame (h.of_leads (hl₁.trans hl₂))).bind fun is m₃ hl₃ _ => ?_
    exact keeps_pure hl₃.inv trivial

theorem keeps_items (hc : D.Calls R ctx) : ∀ (elem : Ty) (es : List Expr) (frame : FrameId)
    (done : Array Value) {m : Machine}, elem.IsSized → D.Ready R m frame →
    (∀ v ∈ done, D.Item elem m.memory v) →
    D.Keeps R .expression (Expr.items ctx elem es frame done) m
      fun vs m' => ∀ v ∈ vs, D.Item elem m'.memory v
  | _, [], _, _, _, _, h, hd => keeps_pure h.inv hd
  | elem, e :: es, frame, done, m, ht, h, hd => by
    -- the elements behind this one, once its value is there
    have hrest : ∀ v m', D.Leads m m' → D.Item elem m'.memory v → D.Keeps R .expression
        (Expr.items ctx elem es frame (done.push v)) m'
        fun vs m'' => ∀ v ∈ vs, D.Item elem m''.memory v :=
      fun v m' hl hv => keeps_items hc elem es frame (done.push v) ht (h.of_leads hl)
        (items_push hl hd hv)
    cases e with
    | elements inner pos =>
      cases elem with
      | array size elem' =>
        refine (keeps_items hc elem' inner frame #[] ht.2 h (by simp)).bind fun items m₁ hl₁ hi => ?_
        refine (keeps_newArray ht hl₁.inv hi).bind fun v m₂ hl₂ hv => ?_
        exact hrest v m₂ (hl₁.trans hl₂) ⟨hv.1, .inr (.inr hv.2)⟩
      | _ =>
        refine (keeps_report h.inv).bind fun _ m₁ hl₁ _ => ?_
        refine (keeps_zero ht hl₁.inv).bind fun v m₂ hl₂ hv => ?_
        exact hrest v m₂ (hl₁.trans hl₂) ⟨hv.1, .inr hv.2⟩
    | _ =>
      refine (keeps_raw hc _ frame h).one.bind fun v m₁ hl₁ hv => ?_
      refine (keeps_arrayItem hl₁.inv hv).bind fun w m₂ hl₂ hw => ?_
      exact hrest w m₂ (hl₁.trans hl₂) hw

theorem keeps_type (hc : D.Calls R ctx) : ∀ (t : TypeExpr) (frame : FrameId) {m : Machine},
    D.Ready R m frame → D.Keeps R .expression (t.eval ctx frame) m
      fun type _ => (t.isPointer = true → type.kind = .pointer) ∧ type.IsSized
  | .int32, _, _, h => keeps_pure h.inv ⟨fun hp => (by cases hp), trivial⟩
  | .float32, _, _, h => keeps_pure h.inv ⟨fun hp => (by cases hp), trivial⟩
  | .bool, _, _, h => keeps_pure h.inv ⟨fun hp => (by cases hp), trivial⟩
  | .string, _, _, h => keeps_pure h.inv ⟨fun hp => (by cases hp), trivial⟩
  | .rune, _, _, h => keeps_pure h.inv ⟨fun hp => (by cases hp), trivial⟩
  | .array size elem, frame, _, h => by
    refine (keeps_raw hc size frame h).one.bind fun v m₁ hl₁ _ => ?_
    refine (keeps_arraySize hl₁.inv).bind fun n m₂ hl₂ hn => ?_
    refine (keeps_type hc elem frame (h.of_leads (hl₁.trans hl₂))).bind fun t m₃ hl₃ ht => ?_
    exact keeps_pure hl₃.inv ⟨fun hp => (by cases hp), hn, ht.2⟩
  | .pointer target, frame, _, h => by
    refine (keeps_type hc target frame h).bind fun t m₁ hl₁ _ => ?_
    exact keeps_pure hl₁.inv ⟨fun _ => rfl, trivial⟩

end

end Discipline
end Treewalk
