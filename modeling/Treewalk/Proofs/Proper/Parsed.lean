/-
# What is read is proper

The parser builds proper trees only, whatever the source: one lemma a rule, each
from those before it. Faults do not matter, since a statement that is given up
at one leaves nothing behind in the tree but what was read before it, and at
whatever depth that happens, the list of statements around it goes on behind it.

Every position, in the tree and of a fault of the grammar, is that of a token:
no rule reads past the end of file, so the token at hand is always one of the
tokens of the source.

Key theorems: `Parser.rulesBuild_exprRules`, `Parser.statement_builds`,
`Parser.declarations_build`, `parsed_trees_are_proper`.
-/
import Treewalk.Proofs.Forward
import Treewalk.Proofs.Proper

namespace Treewalk
namespace Parser

variable {α : Type} {ts : List Token} {Q : α → Prop}

/-! ### Lists -/

theorem commaList_builds {close : Token.Kind} {item : Parser α} (hi : Builds ts Somewhere Q item) :
    ∀ n, Builds ts Somewhere (fun as => ∀ a ∈ as, Q a) (commaList close item n)
  | 0 => builds_exhausted
  | n + 1 => by
    refine builds_kind fun κ => builds_ite (fun _ => ?_) fun _ => ?_
    · exact builds_pure (List.forall_mem_nil _)
    refine hi.seq fun a ha => builds_kind fun κ => builds_ite (fun _ => ?_) fun hκ => ?_
    · exact builds_pure (List.forall_mem_singleton.mpr ha)
    · refine builds_take (by simp_all) fun _ _ => (commaList_builds hi n).seq fun as has => ?_
      exact builds_pure (List.forall_mem_cons.mpr ⟨ha, has⟩)

theorem commaList1_builds {item : Parser α} (hi : Builds ts Somewhere Q item) :
    ∀ n, Builds ts Somewhere (fun as => as.isEmpty = false ∧ ∀ a ∈ as, Q a) (commaList1 item n)
  | 0 => builds_exhausted
  | n + 1 => by
    refine hi.seq fun a ha => builds_kind fun κ => builds_ite (fun _ => ?_) fun hκ => ?_
    · exact builds_pure ⟨rfl, List.forall_mem_singleton.mpr ha⟩
    · refine builds_take (by simp_all) fun _ _ => (commaList1_builds hi n).seq fun as has => ?_
      exact builds_pure ⟨rfl, List.forall_mem_cons.mpr ⟨ha, has.2⟩⟩

theorem allProper_iff {here : Position → Bool} {listed : Bool} : ∀ es : List Expr,
    Expr.allProper here listed es = true ↔ ∀ e ∈ es, e.isProper here listed = true
  | [] => by simp [Expr.allProper]
  | e :: es => by simp [Expr.allProper, allProper_iff es]

/-! ### Expressions -/

/-- An expression as the rules build it on the tokens `ts`. -/
abbrev ProperExpr (ts : List Token) (e : Expr) : Prop := e.isProper (tokenAt ts) false = true

abbrev ProperType (ts : List Token) (t : TypeExpr) : Prop := t.isProper (tokenAt ts) = true

/-- Expressions, each by itself. -/
abbrev ProperExprs (ts : List Token) (es : List Expr) : Prop :=
  Expr.allProper (tokenAt ts) false es = true

/-- The elements of a list. -/
abbrev ProperItems (ts : List Token) (es : List Expr) : Prop :=
  Expr.allProper (tokenAt ts) true es = true

/-- The rules for what nests in expressions build proper trees. -/
structure RulesBuild (ts : List Token) (rules : ExprRules) : Prop where
  expr : Builds ts Somewhere (ProperExpr ts) rules.expr
  unary : Builds ts Somewhere (ProperExpr ts) rules.unary
  type : Builds ts Somewhere (ProperType ts) rules.type
  elements : Builds ts Somewhere (ProperItems ts) rules.elements

theorem exprs_build {expr : Parser Expr} (he : Builds ts Somewhere (ProperExpr ts) expr) (n : Nat) :
    Builds ts Somewhere (fun es => es.isEmpty = false ∧ ProperExprs ts es) (commaList1 expr n) :=
  (commaList1_builds he n).imp fun es h => ⟨h.1, (allProper_iff es).mpr h.2⟩

theorem join_proper {c : Connective} {lhs rhs : Expr} (hl : ProperExpr ts lhs)
    (hr : ProperExpr ts rhs) : ProperExpr ts (c.join lhs rhs) := by
  have hpos : tokenAt ts lhs.pos = true := Expr.here_pos hl
  cases c <;> simp [Connective.join, ProperExpr, Expr.isProper, hpos, hl, hr]

theorem chain_builds {marks : List (Token.Kind × Connective)} {operand : Parser Expr}
    (hmarks : marks.lookup .endOfFile = none) (ho : Builds ts Somewhere (ProperExpr ts) operand) :
    ∀ n left, ProperExpr ts left → Builds ts Somewhere (ProperExpr ts) (chain marks operand n left)
  | 0, _, _ => builds_exhausted
  | n + 1, left, hleft => by
    unfold chain
    refine builds_kind fun κ => ?_
    split
    · exact builds_pure hleft
    · next c hc =>
      have hκ : κ ≠ .endOfFile := by
        rintro rfl
        rw [hmarks] at hc
        cases hc
      refine builds_take hκ fun _ _ => ho.seq fun right hright => ?_
      exact chain_builds hmarks ho n _ (join_proper hleft hright)

theorem level_builds {unary : Parser Expr} (hu : Builds ts Somewhere (ProperExpr ts) unary)
    (n : Nat) : ∀ levels : List (List (Token.Kind × Connective)),
    (∀ marks ∈ levels, marks.lookup .endOfFile = none) →
    Builds ts Somewhere (ProperExpr ts) (level n unary levels)
  | [], _ => hu
  | marks :: tighter, hlevels => by
    have htighter := level_builds hu n tighter fun m hm => hlevels m (List.mem_cons_of_mem _ hm)
    exact htighter.seq fun left hleft =>
      chain_builds (hlevels marks List.mem_cons_self) htighter n left hleft

theorem indices_build {expr : Parser Expr} (he : Builds ts Somewhere (ProperExpr ts) expr) :
    ∀ n, Builds ts Somewhere (ProperExprs ts) (indices expr n)
  | 0 => builds_exhausted
  | n + 1 => by
    refine builds_kind fun κ => builds_ite (fun _ => builds_pure rfl) fun hκ => ?_
    refine builds_take (by simp_all) fun _ _ => he.seq fun i hi => ?_
    refine builds_expect (by decide) fun _ _ => ?_
    refine (indices_build he n).seq fun is his => builds_pure ?_
    simp [ProperExprs, Expr.allProper, hi, his]

/-- Behind a bracket there is an index at least. -/
theorem indices_build_one {expr : Parser Expr} (he : Builds ts Somewhere (ProperExpr ts) expr) :
    ∀ n, Builds ts (fun us => (first us).kind = .openBracket)
      (fun is => is.isEmpty = false ∧ ProperExprs ts is) (indices expr n)
  | 0 => builds_exhausted
  | n + 1 => by
    refine builds_kind fun κ => builds_ite (fun hκ => ?_) fun hκ => ?_
    · exact builds_absurd fun us h => hκ (h.2.symm.trans h.1)
    refine builds_take (by simp_all) fun _ _ => he.seq fun i hi => ?_
    refine builds_expect (by decide) fun _ _ => ?_
    refine (indices_build he n).seq fun is his => builds_pure ⟨rfl, ?_⟩
    simp [ProperExprs, Expr.allProper, hi, his]

theorem elementItems_build {item : Parser Expr}
    (hi : Builds ts Somewhere (fun e => e.isProper (tokenAt ts) true = true) item) :
    ∀ n, Builds ts Somewhere (ProperItems ts) (elementItems item n)
  | 0 => builds_exhausted
  | n + 1 => by
    refine builds_skipSemicolons (builds_kind fun κ => builds_ite (fun _ => builds_pure rfl) ?_)
    refine fun _ => hi.seq fun e he => builds_skipSemicolons (builds_kind fun κ => ?_)
    refine builds_ite (fun _ => builds_pure ?_) fun hκ => ?_
    · simp [ProperItems, Expr.allProper, he]
    · refine builds_take (by simp_all) fun _ _ => (elementItems_build hi n).seq fun es hes => ?_
      exact builds_pure (by simp [ProperItems, Expr.allProper, he, hes])

theorem arguments_build {expr : Parser Expr} (he : Builds ts Somewhere (ProperExpr ts) expr)
    (n : Nat) : Builds ts Somewhere (ProperExprs ts) (arguments expr n) := by
  refine builds_expect (by decide) fun _ _ => (commaList_builds he n).seq fun args hargs => ?_
  exact builds_expect (by decide) fun _ _ => builds_pure ((allProper_iff args).mpr hargs)

theorem nameExpr_builds {expr : Parser Expr} (he : Builds ts Somewhere (ProperExpr ts) expr)
    (n : Nat) : Builds ts (fun us => (first us).kind = .identifier) (ProperExpr ts)
      (nameExpr expr n) := by
  have hcall : ∀ {callee pos At}, tokenAt ts pos = true → Builds ts At (ProperExpr ts)
      (do return .call callee (← arguments expr n) pos) := by
    intro callee pos At hpos
    refine (arguments_build he n).seq fun args hargs => builds_pure ?_
    simp [ProperExpr, Expr.isProper, hpos, hargs]
  unfold nameExpr
  refine builds_advance (fun us h => by rw [h]; decide) fun t ht => builds_kind fun κ => ?_
  refine builds_ite (fun hdot => ?_) fun _ => builds_kind fun κ' => ?_
  · refine builds_take (by simp [hdot]) fun _ _ => builds_expect (by decide) fun member _ => ?_
    exact builds_kind fun κ => builds_ite (fun _ => hcall ht) fun _ => builds_failAt_bind ht
  · split
    · exact hcall ht
    · refine ((indices_build_one he n).mono (fun us h => h.2) fun _ h => h).bind fun is his => ?_
      exact builds_pure (by simp [ProperExpr, Expr.isProper, ht, his])
    · exact builds_pure ht

variable {rules : ExprRules}

/-- A type that begins with a bracket is that of an array. -/
theorem type_builds (h : RulesBuild ts rules) (t : Token) :
    Builds ts (fun us => first us = t)
      (fun ty => ProperType ts ty ∧ (t.kind = .openBracket → ty.isArray = true)) (type rules) := by
  unfold type
  refine builds_current fun t' ht => ?_
  by_cases hne : t ≠ t'
  · exact builds_absurd fun us hus => hne (hus.1.symm.trans hus.2)
  obtain rfl := Decidable.not_not.mp hne
  split
  case h_6 hκ =>
    refine builds_takeToken (by simp [hκ]) fun _ _ => h.expr.seq fun size hsize => ?_
    refine builds_expect (by decide) fun _ _ => h.type.seq fun elem helem => ?_
    refine builds_pure ⟨?_, fun _ => rfl⟩
    simp [ProperType, TypeExpr.isProper, hsize, helem]
  case h_7 hκ =>
    refine builds_takeToken (by simp [hκ]) fun _ _ => h.type.seq fun target htarget => ?_
    exact builds_pure ⟨htarget, by simp [hκ]⟩
  case h_8 => exact builds_fail
  all_goals
    next hκ =>
      exact builds_takeToken (by simp [hκ]) fun _ _ => builds_pure ⟨rfl, by simp [hκ]⟩

theorem element_builds (h : RulesBuild ts rules) :
    Builds ts Somewhere (fun e => e.isProper (tokenAt ts) true = true) (element rules) := by
  refine builds_current fun t ht => builds_ite (fun _ => ?_) fun _ => ?_
  · refine h.elements.seq fun items hitems => builds_pure ?_
    simp [Expr.isProper, ht, hitems]
  · exact (h.expr.imp fun _ => Expr.isProper_listed).at

theorem elements_build (h : RulesBuild ts rules) (n : Nat) :
    Builds ts Somewhere (ProperItems ts) (elements rules n) := by
  refine builds_expect (by decide) fun _ _ => (elementItems_build (element_builds h) n).seq ?_
  intro items hitems
  exact builds_skipSemicolons (builds_expect (by decide) fun _ _ => builds_pure hitems)

theorem primary_builds (h : RulesBuild ts rules) (n : Nat) :
    Builds ts Somewhere (ProperExpr ts) (primary rules n) := by
  unfold primary
  refine builds_current fun t ht => ?_
  split
  case h_8 hκ =>
    refine builds_takeToken (by simp [hκ]) fun _ _ => h.expr.seq fun e he => ?_
    exact builds_expect (by decide) fun _ _ => builds_pure he
  case h_9 hκ =>
    refine ((type_builds h t).mono (fun us hus => hus.2) fun _ hty => hty).bind fun ty hty => ?_
    refine (elements_build h n).seq fun items hitems => builds_pure ?_
    simp [ProperExpr, Expr.isProper, ht, hty.1, hty.2 hκ, hitems]
  case h_10 hκ =>
    exact (nameExpr_builds h.expr n).mono (fun us hus => hus.2 ▸ hκ) fun _ he => he
  case h_11 => exact builds_fail
  all_goals
    next hκ => exact builds_takeToken (by simp [hκ]) fun _ _ => builds_pure ht

theorem unary_builds (h : RulesBuild ts rules) (n : Nat) :
    Builds ts Somewhere (ProperExpr ts) (unary rules n) := by
  unfold unary
  refine builds_current fun t ht => ?_
  split
  case h_4 hκ =>
    refine builds_takeToken (by simp [hκ]) fun _ _ => builds_kind fun κ => ?_
    refine builds_ite (fun _ => builds_fail_bind) fun hname => ?_
    exact builds_take (by simp_all) fun _ _ => builds_pure ht
  case h_5 => exact (primary_builds h n).at
  all_goals
    next hκ =>
      refine builds_takeToken (by simp [hκ]) fun _ _ => h.unary.seq fun e he => builds_pure ?_
      simp [ProperExpr, Expr.isProper, ht, he]

theorem rulesBuild_exprRules : ∀ n, RulesBuild ts (exprRules n)
  | 0 => ⟨builds_exhausted, builds_exhausted, builds_exhausted, builds_exhausted⟩
  | n + 1 => by
    have h := rulesBuild_exprRules n
    have hunary := unary_builds h n
    refine ⟨level_builds hunary n _ lookup_endOfFile, hunary, ?_, elements_build h n⟩
    exact fun c hc _ => ((type_builds h (first c.tokens)).imp fun _ hty => hty.1) c hc rfl

/-! ### Simple statements and declarations -/

/-- Statements as the rules build them on the tokens `ts`: in a body, and in the header of a loop. -/
abbrev ProperStmt (ts : List Token) (s : Stmt) : Prop := s.isProper (tokenAt ts) = true

abbrev ProperHeader (ts : List Token) (s : Stmt) : Prop := s.isProperHeader (tokenAt ts) = true

theorem binder_builds : Builds ts Somewhere (fun b => tokenAt ts b.pos = true) binder :=
  builds_expect (by decide) fun _ ht => builds_pure ht

theorem binders_build (n : Nat) :
    Builds ts Somewhere (fun bs => Binder.areProper (tokenAt ts) bs = true) (commaList1 binder n) :=
  (commaList1_builds binder_builds n).imp fun bs h => by
    simpa [Binder.areProper, h.1] using h.2

theorem type?_builds (h : RulesBuild ts rules) :
    Builds ts Somewhere (fun ty? => ty?.all (TypeExpr.isProper (tokenAt ts)) = true) (type? rules) :=
  builds_kind fun _ => builds_ite (fun _ => h.type.seq fun _ hty => builds_pure hty)
    fun _ => builds_pure rfl

/-- A top-level statement as the rules build it. -/
abbrev ProperDeclaration (ts : List Token) (s : Stmt) : Prop :=
  s.isProperDeclaration (tokenAt ts) = true

-- A declaration is read by one rule in bodies and at top level.
theorem varDecl_builds (h : RulesBuild ts rules) (n : Nat) :
    Builds ts Somewhere (fun s => ProperStmt ts s ∧ ProperDeclaration ts s) (varDecl rules n) := by
  unfold varDecl
  refine builds_expect (by decide) fun start hstart => (binders_build n).seq fun names hnames => ?_
  refine (type?_builds h).seq fun ty hty => builds_kind fun κ => ?_
  have hdone : ∀ values, ProperExprs ts values →
      Builds ts Somewhere (fun s => ProperStmt ts s ∧ ProperDeclaration ts s) (do
        if ty.isNone ∧ values.isEmpty then fail (.untypedVariable (names.head?.elim "" Binder.name))
        statementEnd
        return .varDecl names ty values start.pos) := by
    intro values hvalues
    refine builds_ite (fun _ => builds_fail_bind) fun hgiven => ?_
    have hproper : ProperStmt ts (.varDecl names ty values start.pos) := by
      simp only [ProperStmt, Stmt.isProper, hstart, hnames, hty, hvalues, Bool.and_true,
        Bool.true_and]
      cases ty <;> simp_all
    exact builds_statementEnd (builds_pure ⟨hproper, hproper⟩)
  refine builds_ite (fun hκ => ?_) fun _ => ?_
  · refine builds_take (by simp [hκ]) fun _ _ => (exprs_build h.expr n).seq fun values hvalues => ?_
    exact hdone values hvalues.2
  · exact (builds_pure (Q := ProperExprs ts) rfl).bind hdone

theorem constDecl_builds (h : RulesBuild ts rules) :
    Builds ts Somewhere (fun s => ProperStmt ts s ∧ ProperDeclaration ts s) (constDecl rules) := by
  refine builds_expect (by decide) fun _ _ => binder_builds.seq fun b hb => ?_
  refine (type?_builds h).seq fun ty hty => builds_expect (by decide) fun _ _ => ?_
  refine h.expr.seq fun value hvalue => builds_statementEnd ?_
  have hproper : ProperStmt ts (.constDecl b.name ty value b.pos) := by
    simp [ProperStmt, Stmt.isProper, hb, hty, hvalue]
  exact builds_pure ⟨hproper, hproper⟩

/-- The target of an assignment is looked for in what has been read, and nothing is read for it. -/
theorem builds_target {β : Type} {At : List Token → Prop} {S : β → Prop} {e : Expr}
    {f : Target → Parser β} (he : ProperExpr ts e)
    (h : ∀ t : Target, t.isProper (tokenAt ts) = true → Builds ts At S (f t)) :
    Builds ts At S (target e >>= f) := by
  unfold target
  split
  · next t ht =>
    refine h t ?_
    unfold target? at ht
    split at ht
    · cases ht
      rfl
    · cases ht
      simp_all [ProperExpr, Expr.isProper, Target.isProper]
    · cases ht
      rfl
    · cases ht
  · exact builds_failAt_bind (Expr.here_pos he)

/-- The mark of an assignment stands for one of four operators, or for none. -/
theorem assignOp_proper (text : String) : (assignOp text).isProper = true := by
  unfold assignOp
  split <;> rfl

theorem simpleStatement_builds (h : RulesBuild ts rules) (n : Nat) :
    Builds ts Somewhere (ProperHeader ts) (simpleStatement rules n) := by
  unfold simpleStatement
  refine builds_current fun t ht => builds_get fun c _ => builds_ite (fun _ => ?_) fun _ => ?_
  · refine (binders_build n).seq fun names hnames => builds_expect (by decide) fun _ _ => ?_
    refine (exprs_build h.expr n).seq fun values hvalues => builds_pure ?_
    simp [ProperHeader, Stmt.isProperHeader, ht, hnames, hvalues]
  · refine h.expr.seq fun left hleft => builds_kind fun κ => ?_
    split
    case h_1 | h_2 =>
      refine builds_target hleft fun target htarget => builds_take (by decide) fun mark _ => ?_
      refine h.expr.seq fun value hvalue => builds_pure ?_
      simp [ProperHeader, Stmt.isProperHeader, ht, htarget, assignOp_proper, hvalue]
    case h_3 | h_4 =>
      refine builds_target hleft fun target htarget => ?_
      refine builds_take (by decide) fun _ _ => builds_pure ?_
      simp [ProperHeader, Stmt.isProperHeader, ht, htarget]
    case h_5 => exact builds_pure (by simp [ProperHeader, Stmt.isProperHeader, ht, hleft])

/-- Where names and `:=` lie ahead, the statement is a short declaration. -/
theorem simpleStatement_builds_short (h : RulesBuild ts rules) (n : Nat) :
    Builds ts (fun us => startsShort us = true)
      (fun s => s.isProperDeclaration (tokenAt ts) = true) (simpleStatement rules n) := by
  unfold simpleStatement
  refine builds_current fun t ht => builds_get fun c hc => builds_ite (fun _ => ?_) fun hshort => ?_
  · refine (binders_build n).seq fun names hnames => builds_expect (by decide) fun _ _ => ?_
    refine (exprs_build h.expr n).seq fun values hvalues => builds_pure ?_
    simp [Stmt.isProperDeclaration, Stmt.isProper, Stmt.isProperHeader, ht, hnames, hvalues]
  · exact absurd hc.1 hshort

theorem returnStmt_builds (h : RulesBuild ts rules) (n : Nat) :
    Builds ts Somewhere (ProperStmt ts) (returnStmt rules n) := by
  unfold returnStmt
  refine builds_expect (by decide) fun start hstart => builds_kind fun κ => ?_
  have hdone : ∀ values, ProperExprs ts values → Builds ts Somewhere (ProperStmt ts)
      (do statementEnd; return .returnStmt values start.pos) := fun values hvalues =>
    builds_statementEnd (builds_pure (by simp [ProperStmt, Stmt.isProper, hstart, hvalues]))
  split
  case h_6 => exact (exprs_build h.expr n).seq fun values hvalues => hdone values hvalues.2
  all_goals exact (builds_pure (Q := ProperExprs ts) rfl).bind hdone

/-- A simple statement in a body: if it is an expression, it is a call. -/
theorem plainStatement_builds (h : RulesBuild ts rules) (n : Nat) :
    Builds ts Somewhere (ProperStmt ts) (plainStatement rules n) := by
  unfold plainStatement
  refine (simpleStatement_builds h n).seq fun s hs => ?_
  split
  · exact builds_statementEnd (builds_pure (by simpa [ProperStmt, Stmt.isProper] using hs))
  · next e _ _ =>
    simp only [ProperHeader, Stmt.isProperHeader, Bool.and_eq_true] at hs
    exact builds_failAt_bind (Expr.here_pos hs.2)
  · next hexpr hcall =>
    refine builds_statementEnd (builds_pure ?_)
    cases s with
    | shortDecl names values pos => simpa [ProperStmt, Stmt.isProper] using hs
    | assign target op value pos => simpa [ProperStmt, Stmt.isProper] using hs
    | step target op pos => simpa [ProperStmt, Stmt.isProper] using hs
    | expr e pos => exact absurd rfl (hcall e pos)
    | _ => cases hs

/-! ### Blocks and control flow -/

variable {inner : Parser Stmt}

abbrev ProperBody (ts : List Token) (ss : List Stmt) : Prop :=
  Stmt.allProper (tokenAt ts) ss = true

abbrev ProperOtherwise (ts : List Token) (ss? : Option (List Stmt)) : Prop :=
  Stmt.otherwiseProper (tokenAt ts) ss? = true

/-- Statements up to a closing token, each of which satisfies `Q`; those with faults are left out. -/
theorem statementList_builds {closing : List Token.Kind} {Q : Stmt → Prop}
    (hs : Builds ts Somewhere Q inner) :
    ∀ n, Builds ts Somewhere (fun ss => ∀ s ∈ ss, Q s) (statementList inner closing n)
  | 0 => builds_exhausted
  | n + 1 => by
    unfold statementList
    refine builds_skipSemicolons (builds_kind fun κ => builds_ite (fun _ => ?_) fun _ => ?_)
    · exact builds_pure (List.forall_mem_nil _)
    refine (builds_recovering hs).seq fun s? hs? => ?_
    cases s? with
    | none => exact statementList_builds hs n
    | some s =>
      refine (statementList_builds hs n).seq fun ss hss => builds_pure ?_
      exact List.forall_mem_cons.mpr ⟨hs? s rfl, hss⟩

theorem body_builds {closing : List Token.Kind} (hs : Builds ts Somewhere (ProperStmt ts) inner)
    (n : Nat) : Builds ts Somewhere (ProperBody ts) (statementList inner closing n) := by
  have hall : ∀ ss : List Stmt, (∀ s ∈ ss, ProperStmt ts s) → ProperBody ts ss := by
    intro ss hss
    induction ss with
    | nil => rfl
    | cons s ss ih =>
      obtain ⟨hs, hss⟩ := List.forall_mem_cons.mp hss
      simpa [ProperBody, Stmt.allProper, hs] using ih hss
  exact (statementList_builds hs n).imp hall

theorem block_builds (hs : Builds ts Somewhere (ProperStmt ts) inner) (n : Nat) :
    Builds ts Somewhere (ProperBody ts) (block inner n) :=
  builds_expect (by decide) fun _ _ => (body_builds hs n).seq fun _ hbody =>
    builds_expect (by decide) fun _ _ => builds_pure hbody

theorem branch_builds (h : RulesBuild ts rules) (hs : Builds ts Somewhere (ProperStmt ts) inner)
    (n : Nat) : Builds ts Somewhere
      (fun b => ProperExpr ts b.condition ∧ ProperBody ts b.body) (branch rules inner n) :=
  h.expr.seq fun _ hcondition => (block_builds hs n).seq fun _ hbody =>
    builds_pure ⟨hcondition, hbody⟩

theorem elseParts_build (h : RulesBuild ts rules) (hs : Builds ts Somewhere (ProperStmt ts) inner)
    (n : Nat) : ∀ m, Builds ts Somewhere
      (fun arms => Stmt.branchesProper (tokenAt ts) arms.1 = true ∧ ProperOtherwise ts arms.2)
      (elseParts rules inner n m)
  | 0 => builds_exhausted
  | m + 1 => by
    unfold elseParts
    refine builds_elseAhead fun found => builds_ite (fun hfound => ?_) fun _ => ?_
    · refine builds_advance (fun us hus => by simp [hus hfound]) fun _ _ => builds_kind fun κ => ?_
      refine builds_ite (fun hif => ?_) fun _ => ?_
      · refine builds_take (by simp [hif]) fun _ _ => (branch_builds h hs n).seq fun b hb => ?_
        refine (elseParts_build h hs n m).seq fun arms harms => builds_pure ⟨?_, harms.2⟩
        simp [Stmt.branchesProper, hb, harms]
      · exact (block_builds hs n).seq fun body hbody => builds_pure ⟨rfl, hbody⟩
    · exact builds_pure ⟨rfl, rfl⟩

theorem ifElse_builds (h : RulesBuild ts rules) (hs : Builds ts Somewhere (ProperStmt ts) inner)
    (n : Nat) : Builds ts Somewhere (ProperStmt ts) (ifElse rules inner n) := by
  unfold ifElse
  refine builds_expect (by decide) fun start hstart => (branch_builds h hs n).seq fun b hb => ?_
  refine (elseParts_build h hs n n).seq fun arms harms => builds_pure ?_
  simp [ProperStmt, Stmt.isProper, Stmt.branchesProper, hstart, hb, harms]

/-- The parts of a loop header are proper. -/
structure ProperClauses (ts : List Token) (h : Header) : Prop where
  init : h.init.all (Stmt.isProperHeader (tokenAt ts)) = true
  condition : h.condition.all (Expr.isProper (tokenAt ts) false) = true
  post : h.post.all (Stmt.isProperHeader (tokenAt ts)) = true

theorem clauses_build (h : RulesBuild ts rules) (n : Nat) {init : Option Stmt}
    (hinit : init.all (Stmt.isProperHeader (tokenAt ts)) = true) :
    Builds ts Somewhere (ProperClauses ts) (clauses rules n init) := by
  have hpost : ∀ condition : Option Expr,
      condition.all (Expr.isProper (tokenAt ts) false) = true →
      Builds ts Somewhere (ProperClauses ts) (do
        let _ ← expect .semicolon
        let post ← if (← kind) = .openBrace then pure none else some <$> simpleStatement rules n
        return Header.mk init condition post) := by
    intro condition hcondition
    have hdone : ∀ post : Option Stmt, post.all (Stmt.isProperHeader (tokenAt ts)) = true →
        Builds ts Somewhere (ProperClauses ts) (pure (Header.mk init condition post)) :=
      fun post hpost => builds_pure ⟨hinit, hcondition, hpost⟩
    refine builds_expect (by decide) fun _ _ => ?_
    refine builds_kind fun κ => builds_ite (fun _ => ?_) fun _ => ?_
    · exact (hdone none rfl).at
    · have hsome : Builds ts Somewhere
          (fun post? : Option Stmt => post?.all (Stmt.isProperHeader (tokenAt ts)) = true)
          (some <$> simpleStatement rules n) :=
        (simpleStatement_builds h n).seq fun s hs => builds_pure hs
      exact hsome.seq hdone
  unfold clauses
  refine builds_expect (by decide) fun _ _ => ?_
  refine builds_kind fun κ => builds_ite (fun _ => ?_) fun _ => ?_
  · exact (hpost none rfl).at
  · have hsome : Builds ts Somewhere
        (fun e? : Option Expr => e?.all (Expr.isProper (tokenAt ts) false) = true)
        (some <$> rules.expr) := h.expr.seq fun e he => builds_pure he
    exact hsome.seq hpost

theorem header_builds (h : RulesBuild ts rules) (n : Nat) :
    Builds ts Somewhere (ProperClauses ts) (header rules n) := by
  unfold header
  refine builds_kind fun κ => ?_
  split
  · exact builds_pure ⟨rfl, rfl, rfl⟩
  · exact (clauses_build h n rfl).at
  · refine (simpleStatement_builds h n).seq fun first hfirst => builds_kind fun κ => ?_
    have hinit : (some first).all (Stmt.isProperHeader (tokenAt ts)) = true := hfirst
    refine builds_ite (fun _ => (clauses_build h n hinit).at) fun _ => ?_
    split
    · simp only [ProperHeader, Stmt.isProperHeader, Bool.and_eq_true] at hfirst
      exact builds_pure ⟨rfl, hfirst.2, rfl⟩
    · exact builds_current fun _ _ => builds_fail

theorem loop_builds (h : RulesBuild ts rules) (hs : Builds ts Somewhere (ProperStmt ts) inner)
    (n : Nat) : Builds ts Somewhere (ProperStmt ts) (loop rules inner n) := by
  unfold loop
  refine builds_expect (by decide) fun start hstart => ?_
  refine (header_builds h n).seq fun header hheader => ?_
  refine (block_builds hs n).seq fun body hbody => builds_pure ?_
  simp [ProperStmt, Stmt.isProper, hstart, hheader.init, hheader.condition, hheader.post, hbody]

theorem switchClauses_build (h : RulesBuild ts rules)
    (hs : Builds ts Somewhere (ProperStmt ts) inner) (n : Nat) :
    ∀ m otherwise, ProperOtherwise ts otherwise → Builds ts Somewhere
      (fun r => Stmt.clausesProper (tokenAt ts) r.1 = true ∧ ProperOtherwise ts r.2)
      (switchClauses rules inner n m otherwise)
  | 0, _, _ => builds_exhausted
  | m + 1, otherwise, hotherwise => by
    have hbody : Builds ts Somewhere (ProperBody ts) (clauseBody inner n) := body_builds hs n
    unfold switchClauses
    refine builds_skipSemicolons (builds_current fun t ht => ?_)
    split
    · next hκ =>
      refine builds_takeToken (by simp [hκ]) fun _ _ => ?_
      refine (exprs_build h.expr n).seq fun values hvalues => builds_expect (by decide) fun _ _ => ?_
      refine hbody.seq fun body hbody => ?_
      refine (switchClauses_build h hs n m otherwise hotherwise).seq fun r hr => ?_
      refine builds_pure ⟨?_, hr.2⟩
      simp [Stmt.clausesProper, ht, hvalues, hbody, hr]
    · next hκ =>
      refine builds_takeToken (by simp [hκ]) fun _ _ => builds_expect (by decide) fun _ _ => ?_
      refine hbody.seq fun body hbody => builds_ite (fun _ => ?_) fun _ => ?_
      · exact builds_record ht (switchClauses_build h hs n m otherwise hotherwise)
      · exact switchClauses_build h hs n m (some body) hbody
    · exact builds_pure ⟨rfl, hotherwise⟩
    · exact builds_fail

theorem switch_builds (h : RulesBuild ts rules) (hs : Builds ts Somewhere (ProperStmt ts) inner)
    (n : Nat) : Builds ts Somewhere (ProperStmt ts) (switch rules inner n) := by
  unfold switch
  refine builds_expect (by decide) fun start hstart => h.expr.seq fun subject hsubject => ?_
  refine builds_expect (by decide) fun _ _ => ?_
  refine (switchClauses_build h hs n n none rfl).seq fun r hr => ?_
  refine builds_expect (by decide) fun _ _ => ?_
  exact builds_pure (by simp [ProperStmt, Stmt.isProper, hstart, hsubject, hr])

theorem statementWith_builds (h : RulesBuild ts rules)
    (hs : Builds ts Somewhere (ProperStmt ts) inner) (n : Nat) :
    Builds ts Somewhere (ProperStmt ts) (statementWith rules n inner) := by
  unfold statementWith
  refine builds_current fun t ht => ?_
  split
  case h_1 => exact ((varDecl_builds h n).imp fun _ hs => hs.1).at
  case h_2 => exact ((constDecl_builds h).imp fun _ hs => hs.1).at
  case h_3 => exact (ifElse_builds h hs n).at
  case h_4 => exact (loop_builds h hs n).at
  case h_5 => exact (switch_builds h hs n).at
  case h_6 =>
    refine (block_builds hs n).seq fun body hbody => builds_pure ?_
    simp [ProperStmt, Stmt.isProper, ht, hbody]
  case h_7 => exact builds_get fun _ _ => builds_fail
  case h_8 hκ | h_9 hκ =>
    exact builds_takeToken (by simp [hκ]) fun _ _ => builds_statementEnd (builds_pure ht)
  case h_10 => exact (returnStmt_builds h n).at
  case h_11 => exact (plainStatement_builds h n).at

/-- **A statement of a body is proper,** at whatever depth. -/
theorem statement_builds : ∀ n, Builds ts Somewhere (ProperStmt ts) (statement n)
  | 0 => builds_exhausted
  | n + 1 => statementWith_builds (rulesBuild_exprRules (n + 1)) (statement_builds n) (n + 1)

/-! ### Functions and top level -/

/-- Parameters; the names that wait have been read and have no type yet. -/
theorem params_build (h : RulesBuild ts rules) : ∀ n (waiting : List Binder),
    (∀ b ∈ waiting, tokenAt ts b.pos = true) →
    Builds ts Somewhere (fun ps => ∀ p ∈ ps, p.isProper (tokenAt ts) = true)
      (params rules n waiting)
  | 0, _, _ => builds_exhausted
  | n + 1, waiting, hwaiting => by
    unfold params
    refine builds_kind fun κ => builds_ite (fun _ => ?_) fun _ => ?_
    · cases waiting with
      | nil => exact builds_pure (List.forall_mem_nil _)
      | cons b waiting => exact builds_fail_bind
    refine binder_builds.seq fun b hb => builds_kind fun κ => ?_
    have hnames : ∀ b' ∈ waiting ++ [b], tokenAt ts b'.pos = true :=
      List.forall_mem_append.mpr ⟨hwaiting, List.forall_mem_singleton.mpr hb⟩
    split
    · exact builds_take (by decide) fun _ _ => params_build h n _ hnames
    · exact builds_fail
    · refine h.type.seq fun ty hty => builds_kind fun κ => ?_
      have htyped : ∀ p ∈ (waiting ++ [b]).map fun b => Param.mk b.name ty b.pos,
          p.isProper (tokenAt ts) = true := by
        intro p hp
        obtain ⟨b', hb', rfl⟩ := List.mem_map.mp hp
        simp [Param.isProper, hnames b' hb', hty]
      refine builds_ite (fun _ => builds_pure htyped) fun hκ => ?_
      refine builds_take (by simp_all) fun _ _ => ?_
      refine (params_build h n [] (List.forall_mem_nil _)).seq fun ps hps => ?_
      exact builds_pure (List.forall_mem_append.mpr ⟨htyped, hps⟩)

theorem resultTypes_build (h : RulesBuild ts rules) (n : Nat) :
    Builds ts Somewhere (fun tys => ∀ ty ∈ tys, ProperType ts ty) (resultTypes rules n) := by
  unfold resultTypes
  refine builds_kind fun κ => builds_ite (fun hκ => ?_) fun _ => builds_ite (fun _ => ?_) fun _ => ?_
  · refine builds_take (by simp [hκ]) fun _ _ => (commaList_builds h.type n).seq fun tys htys => ?_
    exact builds_expect (by decide) fun _ _ => builds_pure htys
  · exact h.type.seq fun ty hty => builds_pure (List.forall_mem_singleton.mpr hty)
  · exact builds_pure (List.forall_mem_nil _)

theorem function_builds (h : RulesBuild ts rules) (hs : Builds ts Somewhere (ProperStmt ts) inner)
    (n : Nat) : Builds ts Somewhere (ProperDeclaration ts) (function rules n inner) := by
  unfold function
  refine builds_expect (by decide) fun _ _ => binder_builds.seq fun b hb => ?_
  refine builds_expect (by decide) fun _ _ => ?_
  refine (params_build h n [] (List.forall_mem_nil _)).seq fun ps hps => ?_
  refine builds_expect (by decide) fun _ _ => ?_
  refine (resultTypes_build h n).seq fun results hresults => ?_
  refine (block_builds hs n).seq fun body hbody => builds_pure ?_
  simp only [ProperDeclaration, Stmt.isProperDeclaration, Func.isProper, hb, hbody, Bool.true_and,
    Bool.and_true, Bool.and_eq_true, List.all_eq_true]
  exact ⟨hps, hresults⟩

theorem declaration_builds (n : Nat) :
    Builds ts Somewhere (ProperDeclaration ts) (declaration n) := by
  have h : RulesBuild ts (exprRules n) := rulesBuild_exprRules n
  unfold declaration
  refine builds_current fun t ht => ?_
  split
  · exact (function_builds h (statement_builds n) n).at
  · exact ((varDecl_builds h n).imp fun _ hs => hs.2).at
  · exact ((constDecl_builds h).imp fun _ hs => hs.2).at
  · refine builds_get fun c _ => builds_ite (fun hshort => ?_) fun _ => builds_fail
    have hdecl : Builds ts (· = c.tokens) (ProperDeclaration ts) (simpleStatement (exprRules n) n) :=
      (simpleStatement_builds_short h n).mono (fun us hus => hus ▸ hshort) fun _ hs => hs
    exact hdecl.bind fun s hs => builds_statementEnd (builds_pure hs)

theorem declarations_build (depth n : Nat) :
    Builds ts Somewhere (fun ds => ∀ d ∈ ds, ProperDeclaration ts d) (declarations depth n) := by
  rw [declarations_eq_statementList]
  exact statementList_builds (declaration_builds depth) n

end Parser

/-- A program read from tokens is proper, and what was wrong with them is reported at tokens. -/
theorem Program.ofTokens_proper {ts : List Token} (hended : Ended ts) :
    (Program.ofTokens ts).1.isProper (Parser.tokenAt ts) = true ∧
    ∀ f ∈ (Program.ofTokens ts).2, Parser.tokenAt ts f.2 = true := by
  obtain ⟨ds, eof, faults, -, -, hrun⟩ := Parser.declarations_end hended
  have hall := hrun _ _ (Nat.le_refl _) (Nat.le_refl _)
  have hends := Parser.declarations_build ts.length ts.length ⟨ts, #[]⟩
    ⟨List.suffix_rfl, hended, by simp⟩ trivial
  rw [hall] at hends
  rw [Program.ofTokens_of_ok hall]
  exact ⟨List.all_eq_true.mpr hends.2, fun f hf => hends.1.faults f (Array.mem_toList_iff.mp hf)⟩

/-- **Only proper trees are built.** Whatever the source and however much of it is faulty, the tree
holds functions and declarations at top level and functions nowhere else, simple statements in loop
headers, calls for expression statements, lists with members where the grammar asks for one, and
composite lists inside array literals only; its positions, and those of the syntactic errors, are
positions of tokens. -/
theorem parsed_trees_are_proper (source : String) :
    (Parsed.ofText source).program.isProper (Parser.tokenAt (Scan.ofText source).tokens) = true ∧
    ∀ d ∈ (Parsed.ofText source).errors, d.kind = .syntactic →
      ∃ t ∈ (Scan.ofText source).tokens, t.pos = d.pos := by
  obtain ⟨htree, hfaults⟩ := Program.ofTokens_proper (Scan.ended_tokens source)
  refine ⟨htree, fun d hd hkind => ?_⟩
  simp only [Parsed.ofText, List.mem_mergeSort, List.mem_append, List.mem_map] at hd
  obtain ⟨f, -, rfl⟩ | ⟨f, hf, rfl⟩ := hd
  · cases hkind
  · obtain ⟨t, ht, hpos⟩ := List.any_eq_true.mp (hfaults f hf)
    exact ⟨t, ht, beq_iff_eq.mp hpos⟩

end Treewalk
