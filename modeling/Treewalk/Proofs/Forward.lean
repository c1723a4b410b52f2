/-
# The front end comes to an end

However malformed a source is, reading it ends: every rule of the grammar
ends within a bound of as many rounds and as much nesting as there are
tokens, reads a token or gives what it may give for nothing, and never reads
the end of file. A list of statements goes on in rounds, each of which leaves
fewer tokens, by a statement or by what is skipped for a fault, and top level
is done at the end of file and nowhere before.

The rules are gone through in `Forward.Expression` and `Forward.Statement`;
here that is said of each of them by itself (`Parser.RulesAdvance`), and of
whole programs.

Key definitions: `Parser.Advances`, `Parser.RulesAdvance`.
Key theorems: `Parser.rulesAdvance`, `Parser.recovering_shortens`,
`Parser.declarations_end`, `front_end_always_ends`.
-/
import Treewalk.Proofs.Forward.Statement

namespace Treewalk
namespace Parser

variable {α : Type} {At : Token → Prop} {E : α → Prop} {k : Nat}

/-- On `k` tokens at most, the first of which satisfies `At` and the last of which is their only end
of file, the rule ends, with a result or at a fault, and leaves a part that ends in the same way. A
result for which no token is read satisfies `E`. -/
def Advances (k : Nat) (At : Token → Prop) (E : α → Prop) (p : Parser α) : Prop :=
  ∀ tokens faults, Ended tokens → tokens.length ≤ k → At (first tokens) →
    ∃ rest more, rest <:+ tokens ∧ Ended rest ∧
      ((∃ a, p ⟨tokens, faults⟩ = .ok a ⟨rest, faults ++ more⟩ ∧
          (rest.length < tokens.length ∨ rest = tokens ∧ E a)) ∨
        ∃ f pos, p ⟨tokens, faults⟩ = .error (.fault f pos) ⟨rest, faults ++ more⟩)

theorem Moves.advances {p : Parser α} (h : Moves (Fork.same []) At k E p p) :
    Advances k At E p := by
  intro tokens faults hended hlen hfirst
  obtain ⟨e, hends, hsuffix, hrest, hempty, -⟩ := h tokens hended hlen hfirst
  cases e with
  | stops f pos rest more => exact ⟨rest, more, hsuffix, hrest, .inr ⟨f, pos, hends faults⟩⟩
  | gives a rest more =>
    refine ⟨rest, more, hsuffix, hrest, .inl ⟨a, hends faults, ?_⟩⟩
    by_cases hsame : rest = tokens
    · exact .inr ⟨hsame, hempty a rfl hsame⟩
    · have hne : rest.length ≠ tokens.length := fun he => hsame (hsuffix.eq_of_length he)
      exact .inl (Nat.lt_of_le_of_ne hsuffix.length_le hne)

/-- Every rule of the grammar advances on `k` tokens. Expressions may nest `nest` times, statements
`depth` times inside a statement, and a list may go on for `rounds` rounds. -/
structure RulesAdvance (k nest depth rounds : Nat) : Prop where
  expr : Advances k Anywhere Never (exprRules nest).expr
  levels : ∀ levels, levels <:+ precedence →
    Advances k Anywhere Never (level rounds (exprRules nest).unary levels)
  chain : ∀ marks ∈ precedence, ∀ left,
    Advances k Anywhere (· = left) (chain marks (exprRules nest).unary rounds left)
  unary : Advances k Anywhere Never (exprRules nest).unary
  primary : Advances k Anywhere Never (primary (exprRules nest) rounds)
  nameExpr : Advances k (·.kind = .identifier) Never (nameExpr (exprRules nest).expr rounds)
  arguments : Advances k Anywhere Never (arguments (exprRules nest).expr rounds)
  indices : Advances k Anywhere (· = []) (indices (exprRules nest).expr rounds)
  type : Advances k Anywhere Never (exprRules nest).type
  element : Advances k Anywhere Never (element (exprRules nest))
  elementItems : Advances k Anywhere (· = []) (elementItems (Parser.element (exprRules nest)) rounds)
  elements : Advances k Anywhere Never (exprRules nest).elements
  values : Advances k Anywhere Never (commaList1 (exprRules nest).expr rounds)
  binder : Advances k Anywhere Never binder
  binders : Advances k Anywhere Never (commaList1 Parser.binder rounds)
  statementEnd : Advances k (·.kind ∉ [.closeBrace, .kwCase, .kwDefault, .endOfFile]) Never
    statementEnd
  type? : Advances k Anywhere (· = none) (type? (exprRules nest))
  varDecl : Advances k Anywhere Never (varDecl (exprRules nest) rounds)
  constDecl : Advances k Anywhere Never (constDecl (exprRules nest))
  simpleStatement : Advances k Anywhere Never (simpleStatement (exprRules nest) rounds)
  plainStatement : Advances k Anywhere Never (plainStatement (exprRules nest) rounds)
  returnStmt : Advances k Anywhere Never (returnStmt (exprRules nest) rounds)
  statementList : ∀ closing,
    Advances k Anywhere (· = []) (statementList (statement (depth + 1)) closing rounds)
  block : Advances k Anywhere Never (block (statement depth) rounds)
  branch : Advances k Anywhere Never (branch (exprRules nest) (statement depth) rounds)
  elseParts : Advances k Anywhere (· = ([], none))
    (elseParts (exprRules nest) (statement depth) rounds rounds)
  ifElse : Advances k Anywhere Never (ifElse (exprRules nest) (statement depth) rounds)
  clauses : ∀ init, Advances k Anywhere Never (clauses (exprRules nest) rounds init)
  header : Advances k Anywhere (· = ⟨none, none, none⟩) (header (exprRules nest) rounds)
  loop : Advances k Anywhere Never (loop (exprRules nest) (statement depth) rounds)
  clauseBody : Advances k Anywhere (· = []) (clauseBody (statement (depth + 1)) rounds)
  switchClauses : ∀ otherwise, Advances k Anywhere (· = ([], otherwise))
    (switchClauses (exprRules nest) (statement depth) rounds rounds otherwise)
  switch : Advances k Anywhere Never (switch (exprRules nest) (statement depth) rounds)
  statement : Advances k Anywhere Never (statement (depth + 1))
  params : ∀ waiting, Advances k Anywhere (· = []) (params (exprRules nest) rounds waiting)
  resultTypes : Advances k Anywhere (· = []) (resultTypes (exprRules nest) rounds)
  function : Advances k Anywhere Never (function (exprRules nest) rounds (Parser.statement depth))
  declaration : Advances k Anywhere Never (declaration nest)

/-- Where nothing else ends a statement, its end is a token that is read. -/
theorem statementEnd_reads {R : Fork} :
    Moves R (·.kind ∉ [.closeBrace, .kwCase, .kwDefault, .endOfFile]) k Never
      statementEnd statementEnd := by
  refine moves_kind fun κ => ?_
  have hnone : ∀ κ', κ' ∈ [Token.Kind.closeBrace, .kwCase, .kwDefault, .endOfFile] →
      Moves R (fun t : Token => t.kind ∉ [.closeBrace, .kwCase, .kwDefault, .endOfFile] ∧
        t.kind = κ') k Never (pure () : Parser Unit) (pure ()) := by
    intro κ' hmem ts _ _ hfirst
    exact absurd (hfirst.2.symm ▸ hmem) hfirst.1
  split
  · exact moves_takeKind nofun fun _ => moves_pure trivial
  · exact hnone _ (by decide)
  · exact hnone _ (by decide)
  · exact hnone _ (by decide)
  · exact hnone _ (by decide)
  · exact moves_current fun _ _ => moves_fail

/-- **Every rule moves forward,** within bounds of as many as there are tokens. -/
theorem rulesAdvance {nest depth rounds : Nat} (hnest : k ≤ nest) (hdepth : k ≤ depth + 1)
    (hrounds : k ≤ rounds) : RulesAdvance k nest depth rounds := by
  have helse : (Fork.same []).SameElse := Fork.sameElse_same []
  have hr : RulesMove (Fork.same []) k (exprRules nest) (exprRules nest) :=
    rulesMove_exprRules hnest hnest
  have hless : RulesMove (Fork.same []) (k - 1) (exprRules nest) (exprRules nest) :=
    hr.within (Nat.sub_le k 1)
  have hs : Moves (Fork.same []) Anywhere k Never (statement (depth + 1)) (statement (depth + 1)) :=
    statement_moves helse hdepth hdepth
  have hinner : Moves (Fork.same []) Anywhere (k - 1) Never (statement depth) (statement depth) :=
    statement_moves helse (by omega) (by omega)
  have hone : k - 1 ≤ rounds := by omega
  exact
    { expr := hr.expr.advances
      levels := fun levels hlevels => Moves.advances <|
        level_moves (fun marks hm => lookup_endOfFile marks (hlevels.subset hm)) hr.unary hone hone
      chain := fun marks hm left =>
        (chain_moves (lookup_endOfFile marks hm) hr.unary hrounds hrounds left).advances
      unary := hr.unary.advances
      primary := (primary_moves hless hone hone).advances
      nameExpr := (nameExpr_moves hless.expr hone hone).advances
      arguments := (arguments_moves hless.expr hone hone).advances
      indices := (indices_moves hr.expr hrounds hrounds).advances
      type := hr.type.advances
      element := (element_moves hr).advances
      elementItems := (elementItems_moves (element_moves hr) hrounds hrounds).advances
      elements := hr.elements.advances
      values := (commaList1_moves hr.expr hrounds hrounds).advances
      binder := binder_moves.advances
      binders := (commaList1_moves binder_moves hrounds hrounds).advances
      statementEnd := statementEnd_reads.advances
      type? := (type?_moves hr).advances
      varDecl := (varDecl_moves hr hrounds hrounds).advances
      constDecl := (constDecl_moves hr).advances
      simpleStatement := (simpleStatement_moves hr hrounds hrounds).advances
      plainStatement := (plainStatement_moves hr hrounds hrounds).advances
      returnStmt := (returnStmt_moves hr hrounds hrounds).advances
      statementList := fun _ => (statementList_moves hs hrounds hrounds).advances
      block := (block_moves hinner hone hone).advances
      branch := (branch_moves hr hinner hone hone).advances
      elseParts := (elseParts_moves helse hr hinner hone hone hrounds hrounds).advances
      ifElse := (ifElse_moves helse hr hinner hrounds hrounds).advances
      clauses := fun _ => (clauses_moves hr hrounds hrounds).advances
      header := (header_moves hr hrounds hrounds).advances
      loop := (loop_moves hr hinner hrounds hrounds).advances
      clauseBody := (clauseBody_moves hs hrounds hrounds).advances
      switchClauses := fun otherwise =>
        (switchClauses_moves hr hinner hrounds hrounds hrounds hrounds otherwise).advances
      switch := (switch_moves hr hinner hrounds hrounds).advances
      statement := hs.advances
      params := fun waiting => (params_moves hr hrounds hrounds waiting).advances
      resultTypes := (resultTypes_moves hr hrounds hrounds).advances
      function := (function_moves hr hinner hrounds hrounds).advances
      declaration := (declaration_moves helse hnest hnest).advances }

/-! ### Rounds -/

/-- **A round of a list leaves fewer tokens:** it reads a statement, or it records a fault and skips
what belongs to it. -/
theorem recovering_shortens {closing : List Token.Kind} {p : Parser α}
    (hp : Moves (Fork.same []) Anywhere k Never p p) {tokens : List Token} {faults : Faults}
    (hended : Ended tokens) (hlen : tokens.length ≤ k) (hfile : (first tokens).kind ≠ .endOfFile) :
    ∃ o rest more, recovering closing p ⟨tokens, faults⟩ = .ok o ⟨rest, faults ++ more⟩ ∧
      rest <:+ tokens ∧ Ended rest ∧ rest.length < tokens.length ∧ (o = none → more ≠ #[]) := by
  obtain ⟨e, hends, hsuffix, hrest, hempty, -⟩ := hp tokens hended hlen trivial
  cases e with
  | gives a rest more =>
    refine ⟨some a, rest, more, hends.recovering faults, hsuffix, hrest, ?_, nofun⟩
    exact Nat.lt_of_le_of_ne hsuffix.length_le fun he => hempty a rfl (hsuffix.eq_of_length he)
  | stops f pos rest more =>
    refine ⟨none, _, _, hends.recovering_stops faults, ?_, ended_resume hrest, ?_, ?_⟩
    · exact (resume_suffix closing tokens rest).trans
        ((skipStatement_suffix closing 0 rest).trans hsuffix)
    · exact resume_shorter hsuffix hfile hended.ne_nil
    · intro _
      simp

theorem recovering_error {closing : List Token.Kind} {p : Parser α} {c c' : Cursor} {h : Halt}
    (herror : recovering closing p c = .error h c') : h = .exhausted := by
  unfold recovering at herror
  split at herror
  · cases herror
  · cases herror
  · cases herror
    rfl

/-- A list of statements stops for no fault, and is done before a token that closes it or the end of
file. -/
theorem statementList_outcome (inner : Parser Stmt) (closing : List Token.Kind) (n : Nat)
    (c : Cursor) :
    match statementList inner closing n c with
    | .ok _ c' => c'.current.kind = .endOfFile ∨ c'.current.kind ∈ closing
    | .error h _ => h = .exhausted := by
  induction n generalizing c with
  | zero => rfl
  | succ n ih =>
    have hskip : skipSemicolons c = .ok () c.skipSemicolons := rfl
    have hkind : kind c.skipSemicolons = .ok c.skipSemicolons.current.kind c.skipSemicolons := rfl
    unfold statementList
    rw [bind_of_ok hskip, bind_of_ok hkind]
    by_cases hclose : c.skipSemicolons.current.kind = .endOfFile ∨ c.skipSemicolons.current.kind ∈ closing
    · rw [if_pos hclose]
      exact hclose
    rw [if_neg hclose]
    cases hround : recovering closing inner c.skipSemicolons with
    | error h c' =>
      rw [bind_of_error hround]
      exact recovering_error hround
    | ok o c' =>
      rw [bind_of_ok hround]
      have htail := ih c'
      cases o with
      | none => exact htail
      | some s =>
        simp only
        cases hrest : statementList inner closing n c' with
        | error h c'' =>
          rw [bind_of_error hrest]
          rwa [hrest] at htail
        | ok ss c'' =>
          rw [bind_of_ok hrest]
          rwa [hrest] at htail

/-- **Top level is done at the end of file and nowhere before,** with any bounds that are not less
than the number of tokens, and with the same tree. -/
theorem declarations_end {tokens : List Token} (hended : Ended tokens) :
    ∃ ds eof faults, eof.kind = .endOfFile ∧ tokens.getLast? = some eof ∧
      ∀ depth rounds, tokens.length ≤ depth → tokens.length ≤ rounds →
        declarations depth rounds ⟨tokens, #[]⟩ = .ok ds ⟨[eof], faults⟩ := by
  have hmoves : ∀ depth rounds, tokens.length ≤ depth → tokens.length ≤ rounds →
      Moves (Fork.same []) Anywhere tokens.length (· = [])
        (declarations tokens.length tokens.length) (declarations depth rounds) :=
    fun depth rounds hdepth hrounds =>
      declarations_moves (Fork.sameElse_same []) (Nat.le_refl _) hdepth (Nat.le_refl _) hrounds
  obtain ⟨e, hends, hsuffix, hrest, -⟩ :=
    hmoves _ _ (Nat.le_refl _) (Nat.le_refl _) tokens hended (Nat.le_refl _) trivial
  have houtcome := statementList_outcome (declaration tokens.length) [] tokens.length ⟨tokens, #[]⟩
  rw [← declarations_eq_statementList, hends] at houtcome
  cases e with
  | stops f pos rest faults => cases houtcome
  | gives ds rest faults =>
    have hfile : (first rest).kind = .endOfFile := houtcome.resolve_right List.not_mem_nil
    have hlast : rest = [first rest] := by
      obtain ⟨-, hone⟩ | ⟨_, _, hne, _⟩ := Ended.cases hrest
      · exact hone
      · exact absurd hfile hne
    refine ⟨ds, first rest, faults, hfile, ?_, fun depth rounds hdepth hrounds => ?_⟩
    · obtain ⟨before, hbefore⟩ := hsuffix
      rw [← hbefore, show (Ending.gives ds rest faults).rest = [first rest] from hlast]
      exact List.getLast?_concat
    · obtain ⟨e, hends', -, -, -, halike⟩ :=
        hmoves depth rounds hdepth hrounds tokens hended (Nat.le_refl _) trivial
      obtain rfl := hends.unique hends'
      have hother := halike tokens rest (List.append_nil _).symm (List.append_nil _).symm #[]
      rw [show tokens ++ (Fork.same []).right = tokens from List.append_nil _] at hother
      rw [hother, ← hlast]
      simp [Ending.outcome, Ending.leaving, Fork.same]

end Parser

theorem Program.ofTokens_of_ok {tokens : List Token} {ds : List Stmt} {c : Cursor}
    (h : Parser.declarations tokens.length tokens.length ⟨tokens, #[]⟩ = .ok ds c) :
    Program.ofTokens tokens = (⟨ds⟩, c.faults.toList) := by
  unfold Program.ofTokens
  simp only [h]

/-- **The front end always ends and always moves forward.** Whatever the tokens, every rule of the
grammar comes to its end within bounds of as many as there are tokens; it has read a token or gives
what it gives for nothing, and the end of file is left. Each round of a list of statements, in a
block or at top level, leaves fewer tokens than it found, and top level is done exactly at the end
of file. The tokens of a source end with their only end of file, and no character of it is left
over. -/
theorem front_end_always_ends :
    (∀ k nest depth rounds, k ≤ nest → k ≤ depth + 1 → k ≤ rounds →
      Parser.RulesAdvance k nest depth rounds) ∧
    (∀ n closing tokens faults, Ended tokens → tokens.length ≤ n →
      (Parser.first tokens).kind ≠ .endOfFile →
      ∀ p, p = Parser.statement n ∨ p = Parser.declaration n → ∃ o rest more,
        Parser.recovering closing p ⟨tokens, faults⟩ = .ok o ⟨rest, faults ++ more⟩ ∧
        rest <:+ tokens ∧ Ended rest ∧ rest.length < tokens.length ∧ (o = none → more ≠ #[])) ∧
    (∀ tokens, Ended tokens → ∃ ds eof faults,
      eof.kind = .endOfFile ∧ tokens.getLast? = some eof ∧
      (∀ depth rounds, tokens.length ≤ depth → tokens.length ≤ rounds →
        Parser.declarations depth rounds ⟨tokens, #[]⟩ = .ok ds ⟨[eof], faults⟩) ∧
      Program.ofTokens tokens = (⟨ds⟩, faults.toList)) ∧
    ∀ source : String, Ended (Scan.ofText source).tokens ∧
      (lexemes source.toList).flatMap Lexeme.text = source.toList := by
  refine ⟨fun k nest depth rounds => Parser.rulesAdvance, ?_, ?_, ?_⟩
  · intro n closing tokens faults hended hlen hfile p hp
    have hmoves : Parser.Moves (Parser.Fork.same []) Parser.Anywhere n Parser.Never p p := by
      obtain rfl | rfl := hp
      · exact Parser.statement_moves (Parser.Fork.sameElse_same []) (Nat.le_refl n) (Nat.le_refl n)
      · exact Parser.declaration_moves (Parser.Fork.sameElse_same []) (Nat.le_refl n) (Nat.le_refl n)
    exact Parser.recovering_shortens hmoves hended hlen hfile
  · intro tokens hended
    obtain ⟨ds, eof, faults, hfile, hlast, hrun⟩ := Parser.declarations_end hended
    have hall := hrun _ _ (Nat.le_refl _) (Nat.le_refl _)
    exact ⟨ds, eof, faults, hfile, hlast, hrun, Program.ofTokens_of_ok hall⟩
  · exact fun source => ⟨Scan.ended_tokens source, text_lexemes source.toList⟩

end Treewalk
