/-
# What is read is tidy

The parser puts only simple statements into the header of a loop, so the tree
of every source text is tidy, however many faults the text has: what a rule
does not understand it leaves out.

`Parser.Yields` says what holds of all that a rule may give. Rules are put
together by `bind`, and what they yield is put together with them.

Key definition: `Parser.Yields`.
Key theorems: `Parser.simpleStatement_yields`, `Parser.statement_yields`,
`Parsed.ofText_tidy`.
-/
import Treewalk.Grammar.Program
import Treewalk.Proofs.Tidy

namespace Treewalk
namespace Parser

/-- Whatever a rule gives satisfies `P`. -/
def Yields {α : Type} (p : Parser α) (P : α → Prop) : Prop :=
  ∀ c a c', p c = .ok a c' → P a

section Rules

variable {α β : Type} {p : Parser α} {P : α → Prop} {T : β → Prop}

theorem yields_any : p.Yields fun _ => True := fun _ _ _ _ => trivial

theorem yields_pure {a : α} (h : P a) : Yields (pure a) P := by
  intro c b c' hr
  cases hr
  exact h

theorem Yields.bind {f : α → Parser β} (hp : p.Yields P) (hf : ∀ a, P a → (f a).Yields T) :
    Yields (p >>= f) T := by
  intro c b c' hr
  change EStateM.bind p f c = _ at hr
  unfold EStateM.bind at hr
  cases ha : p c with
  | ok a c₁ =>
    simp only [ha] at hr
    exact hf a (hp c a c₁ ha) c₁ b c' hr
  | error e c₁ =>
    simp only [ha] at hr
    cases hr

/-- Behind a rule that may give anything. -/
theorem yields_bind {f : α → Parser β} (hf : ∀ a, (f a).Yields T) : Yields (p >>= f) T :=
  yields_any.bind fun a _ => hf a

theorem yields_map {f : α → β} (hp : p.Yields P) (hf : ∀ a, P a → T (f a)) :
    Yields (f <$> p) T :=
  hp.bind (f := fun a => pure (f a)) fun a ha => yields_pure (hf a ha)

theorem yields_throw {h : Halt} : Yields (throw h : Parser α) P := by
  intro c a c' hr
  cases hr

theorem yields_fail {f : GrammarFault} : Yields (fail f : Parser α) P :=
  yields_bind fun _ => yields_throw

/-- What is recovered from gives nothing. -/
theorem yields_recovering {closing : List Token.Kind} (hp : p.Yields P) :
    Yields (recovering closing p) fun a? => ∀ a, a? = some a → P a := by
  intro c a? c' hr
  unfold recovering at hr
  cases h : p c with
  | ok a c₁ =>
    rw [h] at hr
    cases hr
    rintro _ ⟨⟩
    exact hp c _ _ h
  | error e c₁ =>
    rw [h] at hr
    cases e with
    | fault f pos => cases hr; exact nofun
    | exhausted => cases hr

end Rules

/-! ### Simple statements and headers -/

variable {rules : ExprRules} {rounds : Nat}

theorem simpleStatement_yields :
    (simpleStatement rules rounds).Yields fun s => s.isSimple = true := by
  unfold simpleStatement
  refine yields_bind fun t => yields_bind fun c => ?_
  by_cases hs : startsShort c.tokens = true
  · simp only [if_pos hs]
    exact yields_bind fun _ => yields_bind fun _ => yields_bind fun _ => yields_pure rfl
  · simp only [if_neg hs]
    refine yields_bind fun left => yields_bind fun k => ?_
    split
    · exact yields_bind fun _ => yields_bind fun _ => yields_bind fun _ => yields_pure rfl
    · exact yields_bind fun _ => yields_bind fun _ => yields_bind fun _ => yields_pure rfl
    · exact yields_bind fun _ => yields_bind fun _ => yields_pure rfl
    · exact yields_bind fun _ => yields_bind fun _ => yields_pure rfl
    · exact yields_pure rfl

/-- What the parts of a loop header are. -/
def Header.Simple (h : Header) : Prop :=
  h.init.all Stmt.isSimple = true ∧ h.post.all Stmt.isSimple = true

theorem clauses_yields {init : Option Stmt} (hi : init.all Stmt.isSimple = true) :
    (clauses rules rounds init).Yields Header.Simple := by
  -- the condition plays no part in it
  have hpost : ∀ condition, Yields (do
      let _ ← expect .semicolon
      let post ← if (← kind) = .openBrace then pure none else some <$> simpleStatement rules rounds
      return (⟨init, condition, post⟩ : Header)) Header.Simple := by
    refine fun condition => yields_bind fun _ => yields_bind fun k => ?_
    by_cases hk : k = .openBrace
    · simp only [if_pos hk]
      exact (yields_pure (P := fun post => post = none) rfl).bind fun post hp =>
        yields_pure ⟨hi, by simp [hp]⟩
    · simp only [if_neg hk]
      refine (yields_map (T := fun post => post.all Stmt.isSimple = true) simpleStatement_yields
        fun s hs => by simpa using hs).bind fun post hp => yields_pure ⟨hi, hp⟩
  unfold clauses
  refine yields_bind fun _ => yields_bind fun k => ?_
  by_cases hk : k = .semicolon
  · simp only [if_pos hk]
    exact yields_bind hpost
  · simp only [if_neg hk]
    exact yields_bind hpost

theorem header_yields : (header rules rounds).Yields Header.Simple := by
  unfold header
  refine yields_bind fun k => ?_
  split
  · exact yields_pure ⟨rfl, rfl⟩
  · exact clauses_yields rfl
  · refine simpleStatement_yields.bind fun first hfirst => yields_bind fun k => ?_
    by_cases hk : k = .semicolon
    · simp only [if_pos hk]
      exact clauses_yields (by simpa using hfirst)
    · simp only [if_neg hk]
      split
      · exact yields_pure ⟨rfl, rfl⟩
      · exact yields_bind fun _ => yields_fail

/-! ### Statements -/

variable {inner : Parser Stmt}

theorem statementList_yields {closing : List Token.Kind}
    (hs : inner.Yields fun s => s.tidy = true) : ∀ n,
    (statementList inner closing n).Yields fun ss => Stmt.allTidy ss = true
  | 0 => yields_throw
  | n + 1 => by
    unfold statementList
    refine yields_bind fun _ => yields_bind fun k => ?_
    by_cases hk : k = .endOfFile ∨ k ∈ closing
    · simp only [if_pos hk]
      exact yields_pure rfl
    · simp only [if_neg hk]
      refine (yields_recovering hs).bind fun s? hs? => ?_
      cases s? with
      | none => exact statementList_yields hs n
      | some s =>
        refine (statementList_yields hs n).bind fun ss hss => yields_pure ?_
        simp [Stmt.allTidy, hs? s rfl, hss]

theorem block_yields (hs : inner.Yields fun s => s.tidy = true) :
    (block inner rounds).Yields fun ss => Stmt.allTidy ss = true :=
  yields_bind fun _ => (statementList_yields hs rounds).bind fun _ hss =>
    yields_bind fun _ => yields_pure hss

theorem branch_yields (hs : inner.Yields fun s => s.tidy = true) :
    (branch rules inner rounds).Yields fun b => Stmt.allTidy b.body = true :=
  yields_bind fun _ => (block_yields hs).bind fun _ hss => yields_pure hss

theorem elseParts_yields (hs : inner.Yields fun s => s.tidy = true) : ∀ n,
    (elseParts rules inner rounds n).Yields fun parts =>
      Stmt.branchesTidy parts.1 = true ∧ Stmt.otherwiseTidy parts.2 = true
  | 0 => yields_throw
  | n + 1 => by
    unfold elseParts
    refine yields_bind fun ahead => ?_
    cases ahead with
    | false => exact yields_pure ⟨rfl, rfl⟩
    | true =>
      refine yields_bind fun _ => yields_bind fun k => ?_
      by_cases hk : k = .kwIf
      · simp only [if_pos hk]
        refine yields_bind fun _ => (branch_yields hs).bind fun b hb => ?_
        refine (elseParts_yields hs n).bind fun parts hparts => yields_pure ?_
        simp [Stmt.branchesTidy, hb, hparts]
      · simp only [if_neg hk]
        exact (block_yields hs).bind fun _ hss => yields_pure ⟨rfl, hss⟩

theorem switchClauses_yields (hs : inner.Yields fun s => s.tidy = true) : ∀ n otherwise,
    Stmt.otherwiseTidy otherwise = true →
    (switchClauses rules inner rounds n otherwise).Yields fun parts =>
      Stmt.clausesTidy parts.1 = true ∧ Stmt.otherwiseTidy parts.2 = true
  | 0, _, _ => yields_throw
  | n + 1, otherwise, ho => by
    unfold switchClauses
    refine yields_bind fun _ => yields_bind fun t => ?_
    split
    · refine yields_bind fun _ => yields_bind fun _ => yields_bind fun _ => ?_
      refine (statementList_yields hs rounds).bind fun body hbody => ?_
      refine (switchClauses_yields hs n otherwise ho).bind fun parts hparts => yields_pure ?_
      simp [Stmt.clausesTidy, hbody, hparts]
    · refine yields_bind fun _ => yields_bind fun _ => ?_
      refine (statementList_yields hs rounds).bind fun body hbody => ?_
      by_cases hsome : otherwise.isSome = true
      · simp only [if_pos hsome]
        exact yields_bind fun _ => switchClauses_yields hs n otherwise ho
      · simp only [if_neg hsome]
        exact switchClauses_yields hs n (some body) hbody
    · exact yields_pure ⟨rfl, ho⟩
    · exact yields_fail

/-- A simple statement by itself. -/
theorem plainStatement_yields : (plainStatement rules rounds).Yields fun s => s.tidy = true := by
  refine simpleStatement_yields.bind fun s hs => ?_
  split
  · exact yields_bind fun _ => yields_pure (Stmt.tidy_of_isSimple hs)
  · exact yields_bind fun _ => yields_pure (Stmt.tidy_of_isSimple hs)
  · exact yields_bind fun _ => yields_pure (Stmt.tidy_of_isSimple hs)

theorem varDecl_yields : (varDecl rules rounds).Yields fun s => s.tidy = true := by
  unfold varDecl
  refine yields_bind fun start => yields_bind fun names => yields_bind fun ty =>
    yields_bind fun k => ?_
  -- whatever the values, the declaration ends the same way
  have hend : ∀ values : List Expr, Yields (do
      if ty.isNone ∧ values.isEmpty then fail (.untypedVariable (names.head?.elim "" Binder.name))
      statementEnd
      return Stmt.varDecl names ty values start.pos) fun s => s.tidy = true := by
    intro values
    by_cases hv : ty.isNone = true ∧ values.isEmpty = true
    · simp only [if_pos hv]
      exact yields_bind fun _ => yields_bind fun _ => yields_pure rfl
    · simp only [if_neg hv]
      exact yields_bind fun _ => yields_pure rfl
  by_cases hk : k = .equal
  · simp only [if_pos hk]
    exact yields_bind fun _ => yields_bind hend
  · simp only [if_neg hk]
    exact yields_bind hend

theorem constDecl_yields : (constDecl rules).Yields fun s => s.tidy = true :=
  yields_bind fun _ => yields_bind fun _ => yields_bind fun _ => yields_bind fun _ =>
    yields_bind fun _ => yields_bind fun _ => yields_pure rfl

theorem returnStmt_yields : (returnStmt rules rounds).Yields fun s => s.tidy = true := by
  unfold returnStmt
  refine yields_bind fun start => yields_bind fun k => ?_
  have hend : ∀ values : List Expr, Yields (do
      statementEnd
      return Stmt.returnStmt values start.pos) fun s => s.tidy = true := fun values =>
    yields_bind fun _ => yields_pure rfl
  split <;> exact yields_bind hend

theorem statementWith_yields (hs : inner.Yields fun s => s.tidy = true) :
    (statementWith rules rounds inner).Yields fun s => s.tidy = true := by
  unfold statementWith
  refine yields_bind fun t => ?_
  split
  case h_1 => exact varDecl_yields
  case h_2 => exact constDecl_yields
  case h_3 =>
    refine yields_bind fun _ => (branch_yields hs).bind fun b hb => ?_
    refine (elseParts_yields hs rounds).bind fun parts hparts => yields_pure ?_
    simp [Stmt.tidy, Stmt.branchesTidy, hb, hparts]
  case h_4 =>
    refine yields_bind fun _ => header_yields.bind fun h hh => ?_
    refine (block_yields hs).bind fun body hbody => yields_pure ?_
    simp [Stmt.tidy, hh.1, hh.2, hbody]
  case h_5 =>
    refine yields_bind fun _ => yields_bind fun _ => yields_bind fun _ => ?_
    refine (switchClauses_yields hs rounds none rfl).bind fun parts hparts => ?_
    exact yields_bind fun _ => yields_pure (by simp [Stmt.tidy, hparts])
  case h_6 => exact (block_yields hs).bind fun _ hss => yields_pure hss
  case h_7 => exact yields_bind fun _ => yields_fail
  case h_8 => exact yields_bind fun _ => yields_bind fun _ => yields_pure rfl
  case h_9 => exact yields_bind fun _ => yields_bind fun _ => yields_pure rfl
  case h_10 => exact returnStmt_yields
  case h_11 => exact plainStatement_yields

/-- **A statement is read with simple headers only,** at any depth of nesting. -/
theorem statement_yields : ∀ n, (statement n).Yields fun s => s.tidy = true
  | 0 => yields_throw
  | n + 1 => statementWith_yields (statement_yields n)

theorem function_yields (hs : inner.Yields fun s => s.tidy = true) :
    (function rules rounds inner).Yields fun s => s.tidy = true :=
  yields_bind fun _ => yields_bind fun _ => yields_bind fun _ => yields_bind fun _ =>
    yields_bind fun _ => yields_bind fun _ => (block_yields hs).bind fun _ hss => yields_pure hss

theorem declaration_yields (n : Nat) : (declaration n).Yields fun s => s.tidy = true := by
  unfold declaration
  refine yields_bind fun t => ?_
  split
  · exact function_yields (statement_yields n)
  · exact varDecl_yields
  · exact constDecl_yields
  · refine yields_bind fun c => ?_
    by_cases hc : startsShort c.tokens = true
    · simp only [if_pos hc]
      exact simpleStatement_yields.bind fun s hs => yields_bind fun _ =>
        yields_pure (Stmt.tidy_of_isSimple hs)
    · simp only [if_neg hc]
      exact yields_fail

theorem declarations_yields (depth : Nat) : ∀ n,
    (declarations depth n).Yields fun ss => Stmt.allTidy ss = true
  | 0 => yields_throw
  | n + 1 => by
    unfold declarations
    refine yields_bind fun _ => yields_bind fun k => ?_
    by_cases hk : k = .endOfFile
    · simp only [if_pos hk]
      exact yields_pure rfl
    · simp only [if_neg hk]
      refine (yields_recovering (declaration_yields depth)).bind fun s? hs? => ?_
      cases s? with
      | none => exact declarations_yields depth n
      | some s =>
        refine (declarations_yields depth n).bind fun ss hss => yields_pure ?_
        simp [Stmt.allTidy, hs? s rfl, hss]

end Parser

theorem Program.ofTokens_tidy (tokens : List Token) : (Program.ofTokens tokens).1.tidy = true := by
  unfold Program.ofTokens
  simp only
  cases h : Parser.declarations tokens.length tokens.length ⟨tokens, #[]⟩ with
  | ok ds c => exact Parser.declarations_yields _ _ _ _ _ h
  | error e c => rfl

/-- **The tree of every source text is tidy.** -/
theorem Parsed.ofText_tidy (source : String) : (Parsed.ofText source).program.tidy = true :=
  Program.ofTokens_tidy _

end Treewalk
