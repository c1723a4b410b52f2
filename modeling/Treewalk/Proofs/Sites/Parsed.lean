/-
# Every site is read once

A name that a tree declares was read as a token, and no token was read for
two of them. So the sites of a parsed program have as many places as there
are sites, also when the source has faults and parts of it are skipped.

What a rule reads is counted (`Parser.Takes`): at each place the result
declares no more names than were read there. Rules that declare nothing only
have to leave a part of the tokens (`Parser.Nameless`).

Key definitions: `Parser.namePlaces`, `Parser.Takes`, `Parser.Nameless`.
Key theorems: `Parser.Takes.bind`, `Parser.statement_takes`,
`Parser.declarations_take`, `Program.nodup_sites`.
-/
import Treewalk.Proofs.Coverage
import Treewalk.Proofs.Forward.Statement
import Treewalk.Proofs.Sites

namespace Treewalk
namespace Parser

variable {α β : Type} {had had' : List Position} {mid : α → List Position}
  {places places' : β → List Position}

/-- The places of the names among tokens. -/
def namePlaces (ts : List Token) : List Position :=
  (ts.filter (·.kind == .identifier)).map Token.pos

theorem namePlaces_append (ts us : List Token) :
    namePlaces (ts ++ us) = namePlaces ts ++ namePlaces us := by
  unfold namePlaces
  rw [List.filter_append, List.map_append]

/-- The rule leaves a part of the tokens, and its result declares at each place at most as many
names as were read there, together with those that were read before it. -/
structure Takes (had : List Position) (places : β → List Position) (p : Parser β) : Prop where
  gives : ∀ {c c' b}, p c = .ok b c' → ∃ read, c.tokens = read ++ c'.tokens ∧
    ∀ x, (places b).count x ≤ had.count x + (namePlaces read).count x
  stops : ∀ {c c' h}, p c = .error h c' → c'.tokens <:+ c.tokens

/-- The rule leaves a part of the tokens and declares nothing. -/
abbrev Nameless (p : Parser β) : Prop := Takes [] (fun _ => []) p

/-! ### Ways to put rules together -/

theorem takes_pure {b : β} (h : ∀ x, (places b).count x ≤ had.count x) :
    Takes had places (pure b) := by
  constructor
  · rintro c _ _ ⟨⟩
    refine ⟨[], rfl, fun x => ?_⟩
    have := h x
    omega
  · rintro c _ _ ⟨⟩

theorem takes_failAt {f : GrammarFault} {pos : Position} :
    Takes had places (failAt f pos) := by
  constructor
  · rintro c _ _ ⟨⟩
  · rintro c _ _ ⟨⟩
    exact List.suffix_rfl

theorem takes_fail {f : GrammarFault} : Takes had places (fail f) := by
  constructor
  · rintro c _ _ ⟨⟩
  · rintro c _ _ ⟨⟩
    exact List.suffix_rfl

theorem takes_exhausted : Takes had places exhausted := by
  constructor
  · rintro c _ _ ⟨⟩
  · rintro c _ _ ⟨⟩
    exact List.suffix_rfl

/-- Nothing comes after a fault. -/
theorem takes_fail_bind {f : GrammarFault} {g : α → Parser β} :
    Takes had places (fail f >>= g) := by
  constructor
  · rintro c _ _ ⟨⟩
  · rintro c _ _ ⟨⟩
    exact List.suffix_rfl

theorem takes_failAt_bind {f : GrammarFault} {pos : Position} {g : α → Parser β} :
    Takes had places (failAt f pos >>= g) := by
  constructor
  · rintro c _ _ ⟨⟩
  · rintro c _ _ ⟨⟩
    exact List.suffix_rfl

/-- One rule after another: what the first has left is there for the result of the second. -/
theorem Takes.seq {p : Parser α} {f : α → Parser β} (hp : Takes had mid p)
    (hf : ∀ a, Takes (mid a) places (f a)) : Takes had places (p >>= f) := by
  constructor
  · intro c c' b h
    cases hc : p c with
    | error e c₁ =>
      rw [bind_of_error hc] at h
      cases h
    | ok a c₁ =>
      rw [bind_of_ok hc] at h
      obtain ⟨read, htokens, hcount⟩ := hp.gives hc
      obtain ⟨read', htokens', hcount'⟩ := (hf a).gives h
      refine ⟨read ++ read', by rw [htokens, htokens', List.append_assoc], fun x => ?_⟩
      have hfirst := hcount x
      have hsecond := hcount' x
      rw [namePlaces_append, List.count_append]
      omega
  · intro c c' h herror
    cases hc : p c with
    | error e c₁ =>
      rw [bind_of_error hc] at herror
      cases herror
      exact hp.stops hc
    | ok a c₁ =>
      rw [bind_of_ok hc] at herror
      obtain ⟨read, htokens, -⟩ := hp.gives hc
      exact ((hf a).stops herror).trans ⟨read, htokens.symm⟩

/-- What was read before a rule is kept for what follows it. -/
theorem Takes.keep {p : Parser β} (hp : Takes had' places p) :
    Takes (had ++ had') (fun b => had ++ places b) p := by
  refine ⟨fun {c c' b} h => ?_, hp.stops⟩
  obtain ⟨read, htokens, hcount⟩ := hp.gives h
  refine ⟨read, htokens, fun x => ?_⟩
  have hx := hcount x
  rw [List.count_append, List.count_append]
  omega

theorem Takes.bind {p : Parser α} {f : α → Parser β} (hp : Takes [] mid p)
    (hf : ∀ a, Takes (had ++ mid a) places (f a)) : Takes had places (p >>= f) := by
  have hkeep : Takes (had ++ []) (fun a => had ++ mid a) p := hp.keep
  rw [List.append_nil] at hkeep
  exact hkeep.seq hf

/-- A rule after one that declares nothing. -/
theorem Nameless.bind {p : Parser α} {f : α → Parser β} (hp : Nameless p)
    (hf : ∀ a, Takes had places (f a)) : Takes had places (p >>= f) := by
  refine Takes.bind hp fun a => ?_
  rw [List.append_nil]
  exact hf a

theorem Takes.mono {p : Parser β} (hp : Takes had places p)
    (hhad : ∀ x, had.count x ≤ had'.count x)
    (hplaces : ∀ b x, (places' b).count x ≤ (places b).count x) : Takes had' places' p := by
  refine ⟨fun {c c' b} h => ?_, hp.stops⟩
  obtain ⟨read, htokens, hcount⟩ := hp.gives h
  refine ⟨read, htokens, fun x => ?_⟩
  have h₁ := hcount x
  have h₂ := hhad x
  have h₃ := hplaces b x
  omega

theorem takes_ite {c : Prop} [Decidable c] {p q : Parser β} (hp : Takes had places p)
    (hq : Takes had places q) : Takes had places (if c then p else q) := by
  by_cases h : c
  · rw [if_pos h]; exact hp
  · rw [if_neg h]; exact hq

/-! ### Steps -/

/-- A rule that gives something for the cursor and leaves a part of the tokens. -/
theorem nameless_of_run {p : Parser α} {o : Cursor → α} {n : Cursor → Cursor}
    (hrun : ∀ c, p c = .ok (o c) (n c)) (hn : ∀ c, (n c).tokens <:+ c.tokens) : Nameless p := by
  constructor
  · intro c c' a h
    rw [hrun] at h
    cases h
    obtain ⟨read, htokens⟩ := hn c
    exact ⟨read, htokens.symm, fun x => by simp⟩
  · intro c c' e h
    rw [hrun] at h
    cases h

theorem nameless_pure {a : α} : Nameless (pure a : Parser α) := takes_pure fun _ => Nat.le_refl _

theorem nameless_get : Nameless (get : Parser Cursor) :=
  nameless_of_run (fun _ => rfl) fun _ => List.suffix_rfl

theorem nameless_current : Nameless current :=
  nameless_of_run (fun _ => rfl) fun _ => List.suffix_rfl

theorem nameless_kind : Nameless kind := nameless_of_run (fun _ => rfl) fun _ => List.suffix_rfl

theorem nameless_advance : Nameless advance :=
  nameless_of_run (fun _ => rfl) fun c => List.tail_suffix c.tokens

theorem nameless_skipSemicolons : Nameless skipSemicolons :=
  nameless_of_run (fun _ => rfl) fun _ => List.dropWhile_suffix _

theorem nameless_record {f : GrammarFault} {pos : Position} :
    Nameless (modify (·.record f pos) : Parser Unit) :=
  nameless_of_run (fun _ => rfl) fun _ => List.suffix_rfl

theorem nameless_expect {k : Token.Kind} : Nameless (expect k) :=
  nameless_kind.bind fun _ => takes_ite nameless_advance (nameless_current.bind fun _ => takes_fail)

theorem nameless_elseAhead : Nameless elseAhead :=
  nameless_of_run (n := fun c => ⟨elseRest c.tokens, c.faults⟩)
    (fun c => elseAhead_run c.tokens c.faults) fun c => elseRest_suffix c.tokens

theorem Nameless.map {p : Parser α} {f : α → β} (hp : Nameless p) : Nameless (f <$> p) :=
  Nameless.bind hp fun _ => nameless_pure

/-- A name is read where it stands. -/
theorem binder_takes : Takes [] (fun b => [b.pos]) binder := by
  have hrun : ∀ {c c' : Cursor} {t : Token}, expect .identifier c = .ok t c' →
      c.tokens = t :: c'.tokens ∧ t.kind = .identifier := by
    intro c c' t h
    have hkind : kind c = .ok c.current.kind c := rfl
    unfold expect at h
    rw [bind_of_ok hkind] at h
    by_cases hname : c.current.kind = .identifier
    · rw [if_pos hname] at h
      cases h
      unfold Cursor.current at hname ⊢
      cases htokens : c.tokens with
      | nil =>
        rw [htokens] at hname
        cases hname
      | cons u us =>
        rw [htokens] at hname
        exact ⟨by simp [Cursor.advance, htokens], hname⟩
    · rw [if_neg hname] at h
      cases h
  constructor
  · intro c c' b h
    cases hc : expect .identifier c with
    | error e c₁ =>
      rw [binder, bind_of_error hc] at h
      cases h
    | ok t c₁ =>
      rw [binder, bind_of_ok hc] at h
      cases h
      obtain ⟨htokens, hname⟩ := hrun hc
      refine ⟨[t], htokens, fun x => ?_⟩
      simp [namePlaces, hname]
  · intro c c' e h
    have hnameless : Nameless binder := nameless_expect.bind fun _ => nameless_pure
    exact hnameless.stops h

theorem commaList1_takes {item : Parser β} (hi : Takes [] places item) :
    ∀ n, Takes [] (List.flatMap places) (commaList1 item n)
  | 0 => takes_exhausted
  | n + 1 => by
    refine hi.bind fun a => nameless_kind.bind fun κ => takes_ite ?_ ?_
    · exact takes_pure fun x => by simp
    · refine nameless_advance.bind fun _ => (commaList1_takes hi n).bind fun as => ?_
      exact takes_pure fun x => by simp

theorem commaList1_nameless {item : Parser α} (hi : Nameless item) (n : Nat) :
    Nameless (commaList1 item n) :=
  (commaList1_takes hi n).mono (fun _ => Nat.le_refl _) fun _ _ => Nat.zero_le _

theorem binders_take (n : Nat) : Takes [] (List.map Binder.pos) (commaList1 binder n) := by
  refine (commaList1_takes binder_takes n).mono (fun _ => Nat.le_refl _) fun bs x => ?_
  exact Nat.le_of_eq (by rw [List.map_eq_flatMap])

/-! ### Expressions -/

theorem chain_nameless {marks : List (Token.Kind × Connective)} {operand : Parser Expr}
    (ho : Nameless operand) : ∀ n left, Nameless (chain marks operand n left)
  | 0, _ => takes_exhausted
  | n + 1, left => by
    unfold chain
    refine nameless_kind.bind fun κ => ?_
    split
    · exact nameless_pure
    · exact nameless_advance.bind fun _ => ho.bind fun _ => chain_nameless ho n _

theorem level_nameless {unary : Parser Expr} (hu : Nameless unary) (n : Nat) :
    ∀ levels, Nameless (level n unary levels)
  | [] => hu
  | _ :: tighter =>
    (level_nameless hu n tighter).bind fun left =>
      chain_nameless (level_nameless hu n tighter) n left

theorem commaList_nameless {close : Token.Kind} {item : Parser α} (hi : Nameless item) :
    ∀ n, Nameless (commaList close item n)
  | 0 => takes_exhausted
  | n + 1 => by
    refine nameless_kind.bind fun κ => takes_ite nameless_pure ?_
    refine hi.bind fun a => nameless_kind.bind fun κ => takes_ite nameless_pure ?_
    exact nameless_advance.bind fun _ => (commaList_nameless hi n).bind fun _ => nameless_pure

theorem indices_nameless {expr : Parser Expr} (he : Nameless expr) : ∀ n, Nameless (indices expr n)
  | 0 => takes_exhausted
  | n + 1 => by
    refine nameless_kind.bind fun κ => takes_ite nameless_pure ?_
    refine nameless_advance.bind fun _ => he.bind fun i => nameless_expect.bind fun _ => ?_
    exact (indices_nameless he n).bind fun _ => nameless_pure

theorem elementItems_nameless {item : Parser Expr} (hi : Nameless item) :
    ∀ n, Nameless (elementItems item n)
  | 0 => takes_exhausted
  | n + 1 => by
    refine nameless_skipSemicolons.bind fun _ => nameless_kind.bind fun κ => ?_
    refine takes_ite nameless_pure ?_
    refine hi.bind fun e => nameless_skipSemicolons.bind fun _ => nameless_kind.bind fun κ => ?_
    refine takes_ite nameless_pure (nameless_advance.bind fun _ => ?_)
    exact (elementItems_nameless hi n).bind fun _ => nameless_pure

theorem arguments_nameless {expr : Parser Expr} (he : Nameless expr) (n : Nat) :
    Nameless (arguments expr n) :=
  nameless_expect.bind fun _ => (commaList_nameless he n).bind fun _ =>
    nameless_expect.bind fun _ => nameless_pure

theorem nameExpr_nameless {expr : Parser Expr} (he : Nameless expr) (n : Nat) :
    Nameless (nameExpr expr n) := by
  unfold nameExpr
  refine nameless_advance.bind fun first => nameless_kind.bind fun κ => takes_ite ?_ ?_
  · refine nameless_advance.bind fun _ => nameless_expect.bind fun member => ?_
    refine nameless_kind.bind fun κ => ?_
    exact takes_ite ((arguments_nameless he n).bind fun _ => nameless_pure) takes_failAt_bind
  · refine nameless_kind.bind fun κ => ?_
    split
    · exact (arguments_nameless he n).bind fun _ => nameless_pure
    · exact (indices_nameless he n).bind fun _ => nameless_pure
    · exact nameless_pure

/-- The rules for what nests in expressions leave a part of the tokens. -/
structure RulesNameless (rules : ExprRules) : Prop where
  expr : Nameless rules.expr
  unary : Nameless rules.unary
  type : Nameless rules.type
  elements : Nameless rules.elements

variable {rules : ExprRules}

theorem type_nameless (h : RulesNameless rules) : Nameless (type rules) := by
  unfold type
  refine nameless_current.bind fun t => ?_
  split
  case h_6 =>
    refine nameless_advance.bind fun _ => h.expr.bind fun size => nameless_expect.bind fun _ => ?_
    exact h.type.bind fun _ => nameless_pure
  case h_7 => exact nameless_advance.bind fun _ => h.type.bind fun _ => nameless_pure
  case h_8 => exact takes_fail
  all_goals exact nameless_advance.bind fun _ => nameless_pure

theorem element_nameless (h : RulesNameless rules) : Nameless (element rules) :=
  nameless_current.bind fun _ => takes_ite (h.elements.bind fun _ => nameless_pure) h.expr

theorem elements_nameless (h : RulesNameless rules) (n : Nat) : Nameless (elements rules n) :=
  nameless_expect.bind fun _ => (elementItems_nameless (element_nameless h) n).bind fun _ =>
    nameless_skipSemicolons.bind fun _ => nameless_expect.bind fun _ => nameless_pure

theorem primary_nameless (h : RulesNameless rules) (n : Nat) : Nameless (primary rules n) := by
  unfold primary
  refine nameless_current.bind fun t => ?_
  split
  case h_8 =>
    refine nameless_advance.bind fun _ => h.expr.bind fun e => ?_
    exact nameless_expect.bind fun _ => nameless_pure
  case h_9 =>
    exact (type_nameless h).bind fun _ => (elements_nameless h n).bind fun _ => nameless_pure
  case h_10 => exact nameExpr_nameless h.expr n
  case h_11 => exact takes_fail
  all_goals exact nameless_advance.bind fun _ => nameless_pure

theorem unary_nameless (h : RulesNameless rules) (n : Nat) : Nameless (unary rules n) := by
  unfold unary
  refine nameless_current.bind fun t => ?_
  split
  case h_4 =>
    refine nameless_advance.bind fun _ => nameless_kind.bind fun κ => takes_ite takes_fail_bind ?_
    exact nameless_advance.bind fun _ => nameless_pure
  case h_5 => exact primary_nameless h n
  all_goals exact nameless_advance.bind fun _ => h.unary.bind fun _ => nameless_pure

theorem rulesNameless_exprRules : ∀ n, RulesNameless (exprRules n)
  | 0 => ⟨takes_exhausted, takes_exhausted, takes_exhausted, takes_exhausted⟩
  | n + 1 => by
    have h := rulesNameless_exprRules n
    have hunary := unary_nameless h n
    exact ⟨level_nameless hunary n _, hunary, type_nameless h, elements_nameless h n⟩

/-! ### Simple statements and declarations -/

/-- The places at which a statement in a scope declares. -/
def stmtPlaces (scope : Scope) (s : Stmt) : List Position := (s.sites scope).map Site.pos

def bodyPlaces (scope : Scope) (ss : List Stmt) : List Position :=
  (Stmt.allSites scope ss).map Site.pos

theorem map_pos_binders (scope : Scope) (bs : List Binder) :
    (bs.map (Binder.site scope)).map Site.pos = bs.map Binder.pos := by
  rw [List.map_map]
  rfl

theorem type?_nameless (h : RulesNameless rules) : Nameless (type? rules) :=
  nameless_kind.bind fun _ => takes_ite (h.type.bind fun _ => nameless_pure) nameless_pure

theorem statementEnd_nameless : Nameless statementEnd := by
  unfold statementEnd
  refine nameless_kind.bind fun κ => ?_
  split
  case h_1 => exact nameless_advance.bind fun _ => nameless_pure
  case h_6 => exact nameless_current.bind fun _ => takes_fail
  all_goals exact nameless_pure

theorem varDecl_takes (h : RulesNameless rules) (n : Nat) (scope : Scope) :
    Takes [] (stmtPlaces scope) (varDecl rules n) := by
  unfold varDecl
  refine nameless_expect.bind fun start => (binders_take n).bind fun names => ?_
  have hdone : ∀ ty values, Takes ([] ++ names.map Binder.pos) (stmtPlaces scope)
      (do statementEnd; return .varDecl names ty values start.pos) := by
    intro ty values
    refine statementEnd_nameless.bind fun _ => takes_pure fun x => ?_
    simp only [stmtPlaces, Stmt.sites, map_pos_binders, List.nil_append]
    exact Nat.le_refl _
  refine (type?_nameless h).bind fun ty => nameless_kind.bind fun κ => takes_ite ?_ ?_
  · refine nameless_advance.bind fun _ => (commaList1_nameless h.expr n).bind fun values => ?_
    exact takes_ite takes_fail_bind (hdone ty values)
  · exact nameless_pure.bind fun values => takes_ite takes_fail_bind (hdone ty values)

theorem constDecl_takes (h : RulesNameless rules) (scope : Scope) :
    Takes [] (stmtPlaces scope) (constDecl rules) := by
  unfold constDecl
  refine nameless_expect.bind fun _ => binder_takes.bind fun b => ?_
  refine (type?_nameless h).bind fun ty => nameless_expect.bind fun _ => ?_
  refine h.expr.bind fun value => statementEnd_nameless.bind fun _ => takes_pure fun x => ?_
  exact Nat.le_refl _

theorem target_nameless (e : Expr) : Nameless (target e) := by
  unfold target
  split
  · exact nameless_pure
  · exact takes_failAt

theorem simpleStatement_takes (h : RulesNameless rules) (n : Nat) (scope : Scope) :
    Takes [] (stmtPlaces scope) (simpleStatement rules n) := by
  unfold simpleStatement
  refine nameless_current.bind fun t => nameless_get.bind fun c => takes_ite ?_ ?_
  · refine (binders_take n).bind fun names => nameless_expect.bind fun _ => ?_
    refine (commaList1_nameless h.expr n).bind fun values => takes_pure fun x => ?_
    simp only [stmtPlaces, Stmt.sites, map_pos_binders, List.nil_append]
    exact Nat.le_refl _
  · refine h.expr.bind fun left => nameless_kind.bind fun κ => ?_
    split
    case h_1 | h_2 =>
      refine (target_nameless left).bind fun target => nameless_advance.bind fun op => ?_
      exact h.expr.bind fun _ => takes_pure fun _ => Nat.le_refl _
    case h_3 | h_4 =>
      refine (target_nameless left).bind fun target => nameless_advance.bind fun _ => ?_
      exact takes_pure fun _ => Nat.le_refl _
    case h_5 => exact takes_pure fun _ => Nat.le_refl _

theorem returnStmt_takes (h : RulesNameless rules) (n : Nat) (scope : Scope) :
    Takes [] (stmtPlaces scope) (returnStmt rules n) := by
  unfold returnStmt
  refine nameless_expect.bind fun start => nameless_kind.bind fun κ => ?_
  have hdone : ∀ values, Takes [] (stmtPlaces scope)
      (do statementEnd; return .returnStmt values start.pos) :=
    fun values => statementEnd_nameless.bind fun _ => takes_pure fun _ => Nat.le_refl _
  split
  case h_6 => exact (commaList1_nameless h.expr n).bind hdone
  all_goals exact nameless_pure.bind hdone

theorem plainStatement_takes (h : RulesNameless rules) (n : Nat) (scope : Scope) :
    Takes [] (stmtPlaces scope) (plainStatement rules n) := by
  unfold plainStatement
  refine (simpleStatement_takes h n scope).bind fun s => ?_
  split
  · exact statementEnd_nameless.bind fun _ => takes_pure fun _ => Nat.le_refl _
  · exact takes_failAt_bind
  · exact statementEnd_nameless.bind fun _ => takes_pure fun _ => Nat.le_refl _

/-! ### Blocks and control flow -/

/-- After a fault nothing is declared. -/
theorem recovering_takes {closing : List Token.Kind} {p : Parser β} (hp : Takes [] places p) :
    Takes [] (fun o => o.elim [] places) (recovering closing p) := by
  constructor
  · intro c c' o h
    unfold recovering at h
    split at h
    · next hc =>
      cases h
      exact hp.gives hc
    · next f pos c₁ hc =>
      cases h
      have hresume : resume closing c.tokens c₁.tokens <:+ c.tokens :=
        (resume_suffix closing _ _).trans ((skipStatement_suffix closing 0 _).trans (hp.stops hc))
      obtain ⟨read, htokens⟩ := hresume
      exact ⟨read, htokens.symm, fun x => Nat.zero_le _⟩
    · cases h
  · intro c c' e h
    unfold recovering at h
    split at h
    · cases h
    · cases h
    · next hc =>
      cases h
      exact hp.stops hc

variable {inner : Parser Stmt}

theorem statementList_takes {closing : List Token.Kind} {scope : Scope}
    (hs : Takes [] (stmtPlaces scope) inner) :
    ∀ n, Takes [] (bodyPlaces scope) (statementList inner closing n)
  | 0 => takes_exhausted
  | n + 1 => by
    unfold statementList
    refine nameless_skipSemicolons.bind fun _ => nameless_kind.bind fun κ => takes_ite ?_ ?_
    · exact takes_pure fun _ => Nat.le_refl _
    · refine (recovering_takes hs).bind fun o => ?_
      cases o with
      | none => exact statementList_takes hs n
      | some s =>
        refine (statementList_takes hs n).bind fun ss => takes_pure fun x => ?_
        simp [bodyPlaces, stmtPlaces, Stmt.allSites]

theorem block_takes {scope : Scope} (hs : Takes [] (stmtPlaces scope) inner) (n : Nat) :
    Takes [] (bodyPlaces scope) (block inner n) := by
  unfold block
  refine nameless_expect.bind fun _ => (statementList_takes hs n).bind fun body => ?_
  exact nameless_expect.bind fun _ => takes_pure fun _ => Nat.le_refl _

theorem branch_takes (h : RulesNameless rules) (hs : Takes [] (stmtPlaces .ifBlock) inner)
    (n : Nat) : Takes [] (fun b => bodyPlaces .ifBlock b.body) (branch rules inner n) := by
  unfold branch
  refine h.expr.bind fun condition => (block_takes hs n).bind fun body => ?_
  exact takes_pure fun _ => Nat.le_refl _

/-- The places of the arms of an `if`. -/
def armPlaces (arms : List (Branch Stmt) × Option (List Stmt)) : List Position :=
  (Stmt.branchSites arms.1 ++ Stmt.otherwiseSites .elseBlock arms.2).map Site.pos

theorem elseParts_takes (h : RulesNameless rules) (hs : ∀ scope, Takes [] (stmtPlaces scope) inner)
    (n : Nat) : ∀ m, Takes [] armPlaces (elseParts rules inner n m)
  | 0 => takes_exhausted
  | m + 1 => by
    unfold elseParts
    refine nameless_elseAhead.bind fun found => takes_ite ?_ (takes_pure fun _ => Nat.le_refl _)
    refine nameless_advance.bind fun _ => nameless_kind.bind fun κ => takes_ite ?_ ?_
    · refine nameless_advance.bind fun _ => (branch_takes h (hs _) n).bind fun b => ?_
      refine (elseParts_takes h hs n m).bind fun arms => takes_pure fun x => ?_
      simp [armPlaces, bodyPlaces, Stmt.branchSites]
    · refine (block_takes (hs .elseBlock) n).bind fun body => takes_pure fun x => ?_
      exact Nat.le_refl _

theorem ifElse_takes (h : RulesNameless rules) (hs : ∀ scope, Takes [] (stmtPlaces scope) inner)
    (n : Nat) (scope : Scope) : Takes [] (stmtPlaces scope) (ifElse rules inner n) := by
  unfold ifElse
  refine nameless_expect.bind fun start => (branch_takes h (hs _) n).bind fun b => ?_
  refine (elseParts_takes h hs n n).bind fun arms => takes_pure fun x => ?_
  simp [stmtPlaces, bodyPlaces, armPlaces, Stmt.sites, Stmt.branchSites]

/-- The places of a statement of the header of a loop. -/
def optionalPlaces (s? : Option Stmt) : List Position :=
  (Stmt.optionalSites .loop s?).map Site.pos

def headerPlaces (h : Header) : List Position := optionalPlaces h.init ++ optionalPlaces h.post

theorem simpleStatement?_takes (h : RulesNameless rules) (n : Nat) :
    Takes [] optionalPlaces (some <$> simpleStatement rules n) :=
  (simpleStatement_takes h n .loop).bind fun _ => takes_pure fun _ => Nat.le_refl _

theorem clauses_takes (h : RulesNameless rules) (n : Nat) (init : Option Stmt) :
    Takes (optionalPlaces init) headerPlaces (clauses rules n init) := by
  have hpost : ∀ condition, Takes (optionalPlaces init) headerPlaces
      (do
        let _ ← expect .semicolon
        let post ← if (← kind) = .openBrace then pure none else some <$> simpleStatement rules n
        return Header.mk init condition post) := by
    intro condition
    have hdone : ∀ post, Takes (optionalPlaces init ++ optionalPlaces post) headerPlaces
        (pure (Header.mk init condition post)) := fun post => takes_pure fun _ => Nat.le_refl _
    refine nameless_expect.bind fun _ => nameless_kind.bind fun κ => takes_ite ?_ ?_
    · exact Takes.bind (takes_pure fun _ => Nat.le_refl _) hdone
    · exact (simpleStatement?_takes h n).bind hdone
  unfold clauses
  refine nameless_expect.bind fun _ => nameless_kind.bind fun κ => takes_ite ?_ ?_
  · exact nameless_pure.bind hpost
  · exact h.expr.map.bind hpost

theorem header_takes (h : RulesNameless rules) (n : Nat) :
    Takes [] headerPlaces (header rules n) := by
  unfold header
  refine nameless_kind.bind fun κ => ?_
  split
  · exact takes_pure fun _ => Nat.le_refl _
  · exact clauses_takes h n none
  · refine (simpleStatement_takes h n .loop).bind fun first => nameless_kind.bind fun κ => ?_
    refine takes_ite (clauses_takes h n (some first)) ?_
    split
    · exact takes_pure fun _ => Nat.le_refl _
    · exact nameless_current.bind fun _ => takes_fail

theorem loop_takes (h : RulesNameless rules) (hs : ∀ scope, Takes [] (stmtPlaces scope) inner)
    (n : Nat) (scope : Scope) : Takes [] (stmtPlaces scope) (loop rules inner n) := by
  unfold loop
  refine nameless_expect.bind fun start => (header_takes h n).bind fun header => ?_
  refine (block_takes (hs .loop) n).bind fun body => takes_pure fun x => ?_
  simp [stmtPlaces, headerPlaces, optionalPlaces, bodyPlaces, Stmt.sites]

/-- The places of the clauses of a switch. -/
def clausePlaces (clauses : List (Clause Stmt) × Option (List Stmt)) : List Position :=
  (Stmt.clauseSites clauses.1 ++ Stmt.otherwiseSites .switch clauses.2).map Site.pos

/-- Clauses behind a default that has been read, if there was one. The body of a second default is
dropped. -/
theorem switchClauses_takes (h : RulesNameless rules) (hs : ∀ scope, Takes [] (stmtPlaces scope) inner)
    (n : Nat) : ∀ m otherwise, Takes (clausePlaces ([], otherwise)) clausePlaces
      (switchClauses rules inner n m otherwise)
  | 0, _ => takes_exhausted
  | m + 1, otherwise => by
    have hbody : Takes [] (bodyPlaces .switch) (clauseBody inner n) := statementList_takes (hs _) n
    unfold switchClauses
    refine nameless_skipSemicolons.bind fun _ => nameless_current.bind fun t => ?_
    split
    · refine nameless_advance.bind fun _ => (commaList1_nameless h.expr n).bind fun values => ?_
      refine nameless_expect.bind fun _ => hbody.bind fun body => ?_
      have hrest : Takes (bodyPlaces .switch body ++ clausePlaces ([], otherwise))
          (fun r => bodyPlaces .switch body ++ clausePlaces r)
          (switchClauses rules inner n m otherwise) := (switchClauses_takes h hs n m otherwise).keep
      refine Takes.seq (hrest.mono (fun x => ?_) fun _ _ => Nat.le_refl _) fun r => ?_
      · rw [List.count_append, List.count_append]
        omega
      · exact takes_pure fun x => by simp [clausePlaces, bodyPlaces, Stmt.clauseSites]
    · refine nameless_advance.bind fun _ => nameless_expect.bind fun _ => hbody.bind fun body => ?_
      by_cases hsecond : otherwise.isSome = true
      · rw [if_pos hsecond]
        refine nameless_record.bind fun _ => ?_
        refine (switchClauses_takes h hs n m otherwise).mono (fun x => ?_) fun _ _ => Nat.le_refl _
        simp
      · rw [if_neg hsecond]
        refine (switchClauses_takes h hs n m (some body)).mono (fun x => ?_)
          fun _ _ => Nat.le_refl _
        simp [clausePlaces, bodyPlaces, Stmt.clauseSites, Stmt.otherwiseSites]
    · exact takes_pure fun _ => Nat.le_refl _
    · exact takes_fail

theorem switch_takes (h : RulesNameless rules) (hs : ∀ scope, Takes [] (stmtPlaces scope) inner)
    (n : Nat) (scope : Scope) : Takes [] (stmtPlaces scope) (switch rules inner n) := by
  unfold switch
  refine nameless_expect.bind fun start => h.expr.bind fun subject => ?_
  refine nameless_expect.bind fun _ => ?_
  refine (switchClauses_takes h hs n n none).seq fun r => nameless_expect.bind fun _ => ?_
  exact takes_pure fun _ => Nat.le_refl _

theorem statementWith_takes (h : RulesNameless rules) (hs : ∀ scope, Takes [] (stmtPlaces scope) inner)
    (n : Nat) (scope : Scope) : Takes [] (stmtPlaces scope) (statementWith rules n inner) := by
  unfold statementWith
  refine nameless_current.bind fun t => ?_
  split
  case h_1 => exact varDecl_takes h n scope
  case h_2 => exact constDecl_takes h scope
  case h_3 => exact ifElse_takes h hs n scope
  case h_4 => exact loop_takes h hs n scope
  case h_5 => exact switch_takes h hs n scope
  case h_6 => exact (block_takes (hs .block) n).bind fun body => takes_pure fun _ => Nat.le_refl _
  case h_7 => exact nameless_get.bind fun _ => takes_fail
  case h_8 | h_9 =>
    refine nameless_advance.bind fun _ => statementEnd_nameless.bind fun _ => ?_
    exact takes_pure fun _ => Nat.le_refl _
  case h_10 => exact returnStmt_takes h n scope
  case h_11 => exact plainStatement_takes h n scope

theorem statement_takes : ∀ n scope, Takes [] (stmtPlaces scope) (statement n)
  | 0, _ => takes_exhausted
  | n + 1, scope =>
    statementWith_takes (rulesNameless_exprRules (n + 1)) (statement_takes n) (n + 1) scope

/-! ### Functions and top level -/

/-- Parameters; the names that wait have been read and have no type yet. -/
theorem params_takes (h : RulesNameless rules) : ∀ n waiting,
    Takes (waiting.map Binder.pos) (List.map Param.pos) (params rules n waiting)
  | 0, _ => takes_exhausted
  | n + 1, waiting => by
    unfold params
    refine nameless_kind.bind fun κ => takes_ite ?_ ?_
    · cases waiting with
      | nil => exact takes_pure fun _ => Nat.le_refl _
      | cons b waiting => exact takes_fail_bind
    refine binder_takes.bind fun b => nameless_kind.bind fun κ => ?_
    have hnames : waiting.map Binder.pos ++ [b.pos] = (waiting ++ [b]).map Binder.pos := by simp
    rw [hnames]
    split
    · exact nameless_advance.bind fun _ => params_takes h n (waiting ++ [b])
    · exact takes_fail
    · refine h.type.bind fun ty => nameless_kind.bind fun κ => takes_ite ?_ ?_
      · refine takes_pure fun x => ?_
        rw [List.map_map]
        exact Nat.le_refl _
      · refine nameless_advance.bind fun _ => (params_takes h n []).bind fun ps => ?_
        refine takes_pure fun x => ?_
        rw [List.map_append, List.map_map]
        exact Nat.le_refl _

theorem resultTypes_nameless (h : RulesNameless rules) (n : Nat) :
    Nameless (resultTypes rules n) := by
  unfold resultTypes
  refine nameless_kind.bind fun κ => takes_ite ?_ (takes_ite ?_ nameless_pure)
  · refine nameless_advance.bind fun _ => (commaList_nameless h.type n).bind fun types => ?_
    exact nameless_expect.bind fun _ => nameless_pure
  · exact h.type.bind fun _ => nameless_pure

theorem function_takes (h : RulesNameless rules) (hs : ∀ scope, Takes [] (stmtPlaces scope) inner)
    (n : Nat) (scope : Scope) : Takes [] (stmtPlaces scope) (function rules n inner) := by
  unfold function
  refine nameless_expect.bind fun _ => binder_takes.bind fun b => nameless_expect.bind fun _ => ?_
  refine (params_takes h n []).bind fun ps => nameless_expect.bind fun _ => ?_
  refine (resultTypes_nameless h n).bind fun results => ?_
  refine (block_takes (hs (.function b.name)) n).bind fun body => takes_pure fun x => ?_
  have hparams : (ps.map (Param.site (.function b.name))).map Site.pos = ps.map Param.pos := by
    rw [List.map_map]
    rfl
  simp only [stmtPlaces, bodyPlaces, Stmt.sites, List.map_cons, List.map_append, hparams]
  exact Nat.le_refl _

theorem declaration_takes (n : Nat) : Takes [] (stmtPlaces .global) (declaration n) := by
  have h := rulesNameless_exprRules n
  unfold declaration
  refine nameless_current.bind fun t => ?_
  split
  · exact function_takes h (statement_takes n) n .global
  · exact varDecl_takes h n .global
  · exact constDecl_takes h .global
  · refine nameless_get.bind fun c => takes_ite ?_ takes_fail
    refine (simpleStatement_takes h n .global).bind fun s => ?_
    exact statementEnd_nameless.bind fun _ => takes_pure fun _ => Nat.le_refl _

theorem declarations_take (depth n : Nat) :
    Takes [] (bodyPlaces .global) (declarations depth n) := by
  rw [declarations_eq_statementList]
  exact statementList_takes (declaration_takes depth) n

end Parser

/-! ### Programs -/

/-- The names among the tokens of a source stand at different places. -/
theorem Scan.nodup_namePlaces (source : String) :
    (Parser.namePlaces (Scan.ofText source).tokens).Nodup := by
  have hordered : (Scan.ofText source).tokens.Pairwise Token.Precedes :=
    tokensFrom_pairwise false .start (cut_lexemes source.toList)
  refine List.pairwise_map.mpr ((hordered.filter _).imp_of_mem ?_)
  intro t u _ hu hbefore heq
  obtain hlt | ⟨-, hfile, -⟩ := hbefore
  · unfold Position.Before at hlt
    rw [heq] at hlt
    omega
  · have hname := (List.mem_filter.mp hu).2
    rw [hfile] at hname
    cases hname

/-- A program that was read declares no more names at a place than were read there. -/
theorem Program.count_sites_le (tokens : List Token) (x : Position) :
    ((Program.ofTokens tokens).1.sites.map Site.pos).count x ≤
      (Parser.namePlaces tokens).count x := by
  unfold Program.ofTokens
  simp only
  split
  · next ds c hrun =>
    obtain ⟨read, htokens, hcount⟩ := (Parser.declarations_take _ _).gives hrun
    have hx := hcount x
    rw [List.count_nil] at hx
    rw [show tokens = read ++ c.tokens from htokens, Parser.namePlaces_append, List.count_append]
    have hplaces : (Program.sites ⟨ds⟩).map Site.pos = Parser.bodyPlaces .global ds := rfl
    rw [hplaces]
    omega
  · exact Nat.zero_le _

/-- **The sites of a program that was read have different places.** -/
theorem Program.nodup_sites (source : String) :
    ((Parsed.ofText source).program.sites.map Site.pos).Nodup := by
  refine List.nodup_iff_count.mpr fun x => ?_
  have hnames := List.nodup_iff_count.mp (Scan.nodup_namePlaces source) x
  exact Nat.le_trans (Program.count_sites_le _ x) hnames

example : (Parsed.ofText "func f(a int32) { for i := a; i < 2; i++ { a := i } }").program.sites =
    [⟨"f", ⟨1, 6⟩, .global⟩, ⟨"a", ⟨1, 8⟩, .function "f"⟩, ⟨"i", ⟨1, 23⟩, .loop⟩,
      ⟨"a", ⟨1, 44⟩, .loop⟩] := by
  decide +kernel

/-- At each site a name was read. -/
theorem Program.exists_token_of_mem_sites {source : String} {s : Site}
    (hs : s ∈ (Parsed.ofText source).program.sites) :
    ∃ t ∈ (Scan.ofText source).tokens, t.kind = .identifier ∧ t.pos = s.pos := by
  have hcount : 0 < ((Parsed.ofText source).program.sites.map Site.pos).count s.pos :=
    List.count_pos_iff.mpr (List.mem_map_of_mem hs)
  have hle := Program.count_sites_le (Scan.ofText source).tokens s.pos
  have hmem : s.pos ∈ Parser.namePlaces (Scan.ofText source).tokens :=
    List.count_pos_iff.mp (Nat.lt_of_lt_of_le hcount hle)
  obtain ⟨t, ht, hpos⟩ := List.mem_map.mp hmem
  obtain ⟨hmem, hname⟩ := List.mem_filter.mp ht
  exact ⟨t, hmem, beq_iff_eq.mp hname, hpos⟩

end Treewalk
