/-
# Statements and declarations move forward

Every statement and every declaration reads a token at least, as the rules
they are made of do; a list of statements reads one in each of its rounds,
whether the statement is good or bad. So the rounds of every list are fewer
than the tokens, and the nesting of statements is no deeper than there are
tokens: the bounds never run out, and larger ones change nothing.

Key theorems: `Parser.statementList_moves`, `Parser.statement_moves`,
`Parser.declaration_moves`, `Parser.declarations_moves`.
-/
import Treewalk.Grammar.Program
import Treewalk.Proofs.Forward.Expression

namespace Treewalk
namespace Parser

variable {β : Type} {R : Fork} {At : Token → Prop} {k n n' m m' : Nat} {F : β → Prop}
  {rules rules' : ExprRules} {inner inner' : Parser Stmt}

/-! ### Declarations and simple statements -/

theorem binder_moves : Moves R Anywhere k Never binder binder :=
  moves_expect nofun fun _ => moves_pure trivial

theorem type?_moves (h : RulesMove R k rules rules') :
    Moves R Anywhere k (· = none) (type? rules) (type? rules') := by
  unfold type?
  refine moves_kind fun κ => moves_ite (fun _ => ?_) fun _ => moves_pure rfl
  exact Moves.step h.type.anywhere fun _ => moves_pure trivial

/-- The end of a statement, behind which it is done. -/
theorem moves_done {s : Stmt} :
    Moves R At k Anything (do statementEnd; pure s) (do statementEnd; pure s) :=
  moves_statementEnd.bind fun _ => moves_pure trivial

theorem varDecl_moves (h : RulesMove R k rules rules') (hn : k ≤ n) (hn' : k ≤ n') :
    Moves R Anywhere k Never (varDecl rules n) (varDecl rules' n') := by
  unfold varDecl
  refine moves_expect nofun fun start => ?_
  refine (commaList1_moves binder_moves (by omega) (by omega)).any.bind fun names => ?_
  refine (type?_moves (h.within (Nat.sub_le k 1))).any.bind fun ty => ?_
  refine moves_kind fun κ => moves_ite (fun hequal => ?_) fun _ => ?_
  · subst hequal
    refine moves_takeKind nofun fun _ => ?_
    refine (commaList1_moves (h.expr.within ?_) ?_ ?_).any.bind fun values => ?_
    · omega
    · omega
    · omega
    · exact moves_ite (fun _ => moves_fail_bind) fun _ => moves_done
  · exact moves_ite (fun _ => moves_fail_bind) fun _ => moves_done

theorem constDecl_moves (h : RulesMove R k rules rules') :
    Moves R Anywhere k Never (constDecl rules) (constDecl rules') := by
  unfold constDecl
  refine moves_expect nofun fun _ => binder_moves.any.bind fun b => ?_
  refine (type?_moves (h.within (Nat.sub_le k 1))).any.bind fun ty => ?_
  refine moves_expect nofun fun _ => ?_
  exact (h.expr.within (by omega)).any.bind fun value => moves_done

theorem moves_target {e : Expr} {f f' : Target → Parser β}
    (h : ∀ t, Moves R At k F (f t) (f' t)) :
    Moves R At k F (target e >>= f) (target e >>= f') := by
  unfold target
  split
  · next t _ => exact h t
  · exact moves_failAt_bind

theorem simpleStatement_moves (h : RulesMove R k rules rules') (hn : k ≤ n) (hn' : k ≤ n') :
    Moves R Anywhere k Never (simpleStatement rules n) (simpleStatement rules' n') := by
  unfold simpleStatement
  refine moves_current fun t _ => moves_ifShort ?_ ?_
  · refine Moves.step (commaList1_moves binder_moves hn hn').anywhere fun names => ?_
    refine moves_expect nofun fun _ => ?_
    refine (commaList1_moves (h.expr.within ?_) ?_ ?_).any.bind fun _ => moves_pure trivial
    all_goals omega
  · refine Moves.step h.expr.anywhere fun left => moves_kind fun κ => ?_
    split
    case h_1 | h_2 =>
      refine moves_target fun t => moves_takeKind nofun fun _ => ?_
      exact (h.expr.within (by omega)).any.bind fun _ => moves_pure trivial
    case h_3 | h_4 => exact moves_target fun t => moves_takeKind nofun fun _ => moves_pure trivial
    case h_5 => exact moves_pure trivial

theorem returnStmt_moves (h : RulesMove R k rules rules') (hn : k ≤ n) (hn' : k ≤ n') :
    Moves R Anywhere k Never (returnStmt rules n) (returnStmt rules' n') := by
  unfold returnStmt
  refine moves_expect nofun fun start => moves_kind fun κ => ?_
  split
  case h_6 =>
    refine (commaList1_moves (h.expr.within ?_) ?_ ?_).anywhere.any.bind fun _ => moves_done
    all_goals omega
  all_goals exact moves_done

theorem plainStatement_moves (h : RulesMove R k rules rules') (hn : k ≤ n) (hn' : k ≤ n') :
    Moves R Anywhere k Never (plainStatement rules n) (plainStatement rules' n') := by
  unfold plainStatement
  refine Moves.step (simpleStatement_moves h hn hn') fun s => ?_
  split
  · exact moves_done
  · exact moves_failAt_bind
  · exact moves_done

/-! ### Blocks -/

/-- A list of statements: no round but the last is without a token. -/
theorem statementList_moves {closing : List Token.Kind}
    (hs : Moves R Anywhere k Never inner inner') (hn : k ≤ n) (hn' : k ≤ n') :
    Moves R Anywhere k (· = []) (statementList inner closing n)
      (statementList inner' closing n') := by
  refine bounds_induction (motive := fun j n n' => j ≤ k → Moves R Anywhere j (· = [])
    (statementList inner closing n) (statementList inner' closing n')) ?_ ?_ hn hn' (Nat.le_refl k)
  · exact fun _ _ _ => moves_zero
  · intro j n n' _ _ ih hj
    unfold statementList
    refine moves_skipSemicolons (moves_kind fun κ => ?_)
    refine moves_ite (fun _ => moves_pure rfl) fun hgoes => ?_
    have hround : Moves R (fun t => t.kind ≠ .semicolon ∧ t.kind = κ) (j + 1) Never
        (recovering closing inner) (recovering closing inner') := by
      refine moves_recovering ?_ (hs.within hj).anywhere
      intro t ht hfile
      exact hgoes (.inl (ht.2.symm.trans hfile))
    refine Moves.step hround fun s => ?_
    have htail : Moves R Anywhere j Anything (statementList inner closing n)
        (statementList inner' closing n') := (ih j (Nat.le_refl j) (by omega)).any
    split
    · exact htail.bind fun _ => moves_pure trivial
    · exact htail

theorem block_moves (hs : Moves R Anywhere (k - 1) Never inner inner') (hn : k - 1 ≤ n)
    (hn' : k - 1 ≤ n') : Moves R Anywhere k Never (block inner n) (block inner' n') := by
  unfold block
  refine moves_expect nofun fun _ => ?_
  refine (statementList_moves hs hn hn').any.bind fun body => ?_
  exact moves_expect nofun fun _ => moves_pure trivial

theorem branch_moves (h : RulesMove R k rules rules')
    (hs : Moves R Anywhere (k - 1) Never inner inner') (hn : k - 1 ≤ n) (hn' : k - 1 ≤ n') :
    Moves R Anywhere k Never (branch rules inner n) (branch rules' inner' n') := by
  unfold branch
  refine Moves.step h.expr fun condition => ?_
  refine (block_moves (hs.within ?_) ?_ ?_).any.bind fun _ => moves_pure trivial
  all_goals omega

/-- The arms behind the first. -/
theorem elseParts_moves (helse : R.SameElse) (h : RulesMove R k rules rules')
    (hs : Moves R Anywhere (k - 1) Never inner inner') (hn : k - 1 ≤ n) (hn' : k - 1 ≤ n')
    (hm : k ≤ m) (hm' : k ≤ m') :
    Moves R Anywhere k (· = ([], none)) (elseParts rules inner n m)
      (elseParts rules' inner' n' m') := by
  refine bounds_induction (motive := fun j m m' => j ≤ k → Moves R Anywhere j (· = ([], none))
    (elseParts rules inner n m) (elseParts rules' inner' n' m')) ?_ ?_ hm hm' (Nat.le_refl k)
  · exact fun _ _ _ => moves_zero
  · intro j m m' _ _ ih hj
    have hblock : Moves R Anywhere j Never (block inner n) (block inner' n') :=
      block_moves (hs.within (by omega)) (by omega) (by omega)
    have hbranch : Moves R Anywhere (j - 1) Never (branch rules inner n) (branch rules' inner' n') :=
      branch_moves (h.within (by omega)) (hs.within (by omega)) (by omega) (by omega)
    unfold elseParts
    refine moves_elseAhead helse ?_ (moves_pure rfl)
    refine moves_advance (fun t ht => ht ▸ nofun) fun _ _ => moves_kind fun κ => ?_
    refine moves_ite (fun hif => ?_) fun _ => ?_
    · subst hif
      refine moves_takeKind nofun fun _ => hbranch.any.bind fun b => ?_
      exact (ih (j - 1) (by omega) (by omega)).any.bind fun _ => moves_pure trivial
    · exact hblock.anywhere.any.bind fun _ => moves_pure trivial

theorem ifElse_moves (helse : R.SameElse) (h : RulesMove R k rules rules')
    (hs : Moves R Anywhere (k - 1) Never inner inner') (hn : k ≤ n) (hn' : k ≤ n') :
    Moves R Anywhere k Never (ifElse rules inner n) (ifElse rules' inner' n') := by
  have hinner : Moves R Anywhere (k - 1 - 1) Never inner inner' := hs.within (Nat.sub_le _ 1)
  have hrules : RulesMove R (k - 1) rules rules' := h.within (Nat.sub_le k 1)
  unfold ifElse
  refine moves_expect nofun fun start => ?_
  refine (branch_moves hrules hinner (by omega) (by omega)).any.bind fun b => ?_
  refine (elseParts_moves helse hrules hinner ?_ ?_ ?_ ?_).any.bind fun _ => moves_pure trivial
  all_goals omega

/-! ### Loops -/

theorem clauses_moves {init : Option Stmt} (h : RulesMove R k rules rules') (hn : k ≤ n)
    (hn' : k ≤ n') :
    Moves R Anywhere k Never (clauses rules n init) (clauses rules' n' init) := by
  have hpost : ∀ condition {j}, j ≤ k - 1 → Moves R Anywhere j Anything
      (do
        let _ ← expect .semicolon
        let post ← if (← kind) = .openBrace then pure none else some <$> simpleStatement rules n
        return Header.mk init condition post)
      (do
        let _ ← expect .semicolon
        let post ← if (← kind) = .openBrace then pure none else some <$> simpleStatement rules' n'
        return Header.mk init condition post) := by
    intro condition j hj
    refine moves_expect nofun fun _ => moves_kind fun κ => ?_
    refine moves_ite (fun _ => moves_pure trivial) fun _ => ?_
    have hsimple : Moves R Anywhere (j - 1) Never (simpleStatement rules n)
        (simpleStatement rules' n') :=
      simpleStatement_moves (h.within (by omega)) (by omega) (by omega)
    exact hsimple.anywhere.map.bind fun _ => moves_pure trivial
  unfold clauses
  refine moves_expect nofun fun _ => moves_kind fun κ => ?_
  refine moves_ite (fun _ => (hpost none (Nat.le_refl _)).anywhere) fun _ => ?_
  exact (h.expr.within (Nat.sub_le k 1)).anywhere.map.bind fun _ => hpost _ (Nat.le_refl _)

theorem header_moves (h : RulesMove R k rules rules') (hn : k ≤ n) (hn' : k ≤ n') :
    Moves R Anywhere k (· = ⟨none, none, none⟩) (header rules n) (header rules' n') := by
  unfold header
  refine moves_kind fun κ => ?_
  split
  · exact moves_pure rfl
  · exact (clauses_moves h hn hn').anywhere.ofNever
  · refine Moves.step (simpleStatement_moves h hn hn').anywhere fun first => moves_kind fun κ => ?_
    refine moves_ite (fun _ => ?_) fun _ => ?_
    · exact (clauses_moves (h.within (Nat.sub_le k 1)) (by omega) (by omega)).anywhere.any
    · split
      · exact moves_pure trivial
      · exact moves_current fun _ _ => moves_fail

theorem loop_moves (h : RulesMove R k rules rules')
    (hs : Moves R Anywhere (k - 1) Never inner inner') (hn : k ≤ n) (hn' : k ≤ n') :
    Moves R Anywhere k Never (loop rules inner n) (loop rules' inner' n') := by
  unfold loop
  refine moves_expect nofun fun start => ?_
  refine (header_moves (h.within (Nat.sub_le k 1)) (by omega) (by omega)).any.bind fun header => ?_
  refine (block_moves (hs.within ?_) ?_ ?_).any.bind fun _ => moves_pure trivial
  all_goals omega

/-! ### Switches -/

theorem clauseBody_moves (hs : Moves R Anywhere k Never inner inner') (hn : k ≤ n) (hn' : k ≤ n') :
    Moves R Anywhere k (· = []) (clauseBody inner n) (clauseBody inner' n') :=
  statementList_moves hs hn hn'

/-- The clauses of a switch; nothing is read for the statement ends before its brace only. -/
theorem switchClauses_moves (h : RulesMove R k rules rules')
    (hs : Moves R Anywhere (k - 1) Never inner inner') (hn : k ≤ n) (hn' : k ≤ n')
    (hm : k ≤ m) (hm' : k ≤ m') (otherwise : Option (List Stmt)) :
    Moves R Anywhere k (· = ([], otherwise)) (switchClauses rules inner n m otherwise)
      (switchClauses rules' inner' n' m' otherwise) := by
  refine bounds_induction (motive := fun j m m' => j ≤ k → ∀ otherwise, Moves R Anywhere j
    (· = ([], otherwise)) (switchClauses rules inner n m otherwise)
    (switchClauses rules' inner' n' m' otherwise)) ?_ ?_ hm hm' (Nat.le_refl k) otherwise
  · exact fun _ _ _ _ => moves_zero
  · intro j m m' _ _ ih hj otherwise
    have hbody : ∀ i, i ≤ j → Moves R Anywhere i Anything (clauseBody inner n) (clauseBody inner' n') :=
      fun i hi => (clauseBody_moves (hs.within (by omega)) (by omega) (by omega)).any
    have hvalues : Moves R Anywhere j Never (commaList1 rules.expr n) (commaList1 rules'.expr n') :=
      commaList1_moves (h.expr.within (by omega)) (by omega) (by omega)
    have htail : ∀ i, i ≤ j → ∀ otherwise, Moves R Anywhere i Anything
        (switchClauses rules inner n m otherwise) (switchClauses rules' inner' n' m' otherwise) :=
      fun i hi otherwise => (ih i hi (by omega) otherwise).any
    unfold switchClauses
    refine moves_skipSemicolons (moves_current fun t _ => ?_)
    split
    case h_1 hkind =>
      refine moves_take (hkind ▸ nofun) ?_
      refine hvalues.any.bind fun values => moves_expect nofun fun _ => ?_
      refine (hbody _ (by omega)).bind fun body => ?_
      exact (htail _ (by omega) otherwise).bind fun _ => moves_pure trivial
    case h_2 hkind =>
      refine moves_take (hkind ▸ nofun) (moves_expect nofun fun _ => ?_)
      refine (hbody _ (by omega)).bind fun body => moves_ite (fun _ => ?_) fun _ => ?_
      · exact moves_record.bind fun _ => htail _ (by omega) otherwise
      · exact htail _ (by omega) (some body)
    case h_3 => exact moves_pure rfl
    case h_4 => exact moves_fail

theorem switch_moves (h : RulesMove R k rules rules')
    (hs : Moves R Anywhere (k - 1) Never inner inner') (hn : k ≤ n) (hn' : k ≤ n') :
    Moves R Anywhere k Never (switch rules inner n) (switch rules' inner' n') := by
  unfold switch
  refine moves_expect nofun fun start => ?_
  refine (h.expr.within (Nat.sub_le k 1)).any.bind fun subject => moves_expect nofun fun _ => ?_
  have hclauses : Moves R Anywhere (k - 1 - 1) (· = ([], none)) (switchClauses rules inner n n none)
      (switchClauses rules' inner' n' n' none) := by
    apply switchClauses_moves (h.within (by omega)) (hs.within (by omega))
    all_goals omega
  exact hclauses.any.bind fun _ => moves_expect nofun fun _ => moves_pure trivial

/-! ### Statements -/

theorem statementWith_moves (helse : R.SameElse) (h : RulesMove R k rules rules')
    (hs : Moves R Anywhere (k - 1) Never inner inner') (hn : k ≤ n) (hn' : k ≤ n') :
    Moves R Anywhere k Never (statementWith rules n inner) (statementWith rules' n' inner') := by
  unfold statementWith
  refine moves_current fun t _ => ?_
  split
  case h_1 => exact (varDecl_moves h hn hn').anywhere
  case h_2 => exact (constDecl_moves h).anywhere
  case h_3 => exact (ifElse_moves helse h hs hn hn').anywhere
  case h_4 => exact (loop_moves h hs hn hn').anywhere
  case h_5 => exact (switch_moves h hs hn hn').anywhere
  case h_6 =>
    refine Moves.step (block_moves hs ?_ ?_).anywhere fun _ => moves_pure trivial
    all_goals omega
  case h_7 hkind =>
    refine moves_nestedFunction.mono ?_ (Nat.le_refl k) fun _ ha => ha
    rintro _ rfl
    exact hkind
  case h_8 hkind | h_9 hkind => exact moves_take (hkind ▸ nofun) moves_done
  case h_10 => exact (returnStmt_moves h hn hn').anywhere
  case h_11 => exact (plainStatement_moves h hn hn').anywhere

/-- **Statements never nest deeper than there are tokens,** and each reads one at least. -/
theorem statement_moves (helse : R.SameElse) (hn : k ≤ n) (hn' : k ≤ n') :
    Moves R Anywhere k Never (statement n) (statement n') := by
  refine bounds_induction (motive := fun k n n' => Moves R Anywhere k Never (statement n)
    (statement n')) ?_ ?_ hn hn'
  · exact fun _ _ => moves_zero
  · intro k n n' hn hn' ih
    have hinner : Moves R Anywhere k Never (statement n) (statement n') := ih k (Nat.le_refl k)
    have hrules : RulesMove R (k + 1) (exprRules (n + 1)) (exprRules (n' + 1)) :=
      rulesMove_exprRules (by omega) (by omega)
    exact statementWith_moves helse hrules hinner (by omega) (by omega)

/-! ### Functions and top level -/

/-- Parameters: a name that waits for its type is never left at the closing parenthesis. -/
theorem params_moves (h : RulesMove R k rules rules') (hm : k ≤ m) (hm' : k ≤ m')
    (waiting : List Binder) :
    Moves R Anywhere k (· = []) (params rules m waiting) (params rules' m' waiting) := by
  refine bounds_induction (motive := fun j m m' => j ≤ k → ∀ waiting, Moves R Anywhere j (· = [])
    (params rules m waiting) (params rules' m' waiting)) ?_ ?_ hm hm' (Nat.le_refl k) waiting
  · exact fun _ _ _ _ => moves_zero
  · intro j m m' _ _ ih hj waiting
    unfold params
    refine moves_kind fun κ => moves_ite (fun _ => ?_) fun _ => ?_
    · cases waiting with
      | nil => exact moves_pure rfl
      | cons b waiting => exact moves_fail_bind
    refine Moves.step binder_moves.anywhere fun b => moves_kind fun κ => ?_
    split
    · exact moves_takeKind nofun fun _ => (ih (j - 1) (by omega) (by omega) _).any
    · exact moves_fail
    · refine (h.type.within (show j ≤ k by omega)).anywhere.any.bind fun ty => moves_kind fun κ => ?_
      refine moves_ite (fun _ => moves_pure trivial) fun hcomma => ?_
      rw [Classical.not_not.mp hcomma]
      refine moves_takeKind nofun fun _ => ?_
      exact (ih (j - 1) (by omega) (by omega) []).any.bind fun _ => moves_pure trivial

theorem resultTypes_moves (h : RulesMove R k rules rules') (hn : k ≤ n) (hn' : k ≤ n') :
    Moves R Anywhere k (· = []) (resultTypes rules n) (resultTypes rules' n') := by
  unfold resultTypes
  refine moves_kind fun κ => moves_ite (fun hopen => ?_) fun _ => moves_ite (fun _ => ?_) fun _ => ?_
  · subst hopen
    refine moves_takeKind nofun fun _ => ?_
    refine (commaList_moves (h.type.within (Nat.sub_le k 1)) ?_ ?_).any.bind fun types => ?_
    · omega
    · omega
    · exact moves_expect nofun fun _ => moves_pure trivial
  · exact Moves.step h.type.anywhere fun _ => moves_pure trivial
  · exact moves_pure rfl

/-- A function up to its body: its name, its parameters and its result types. -/
def signature (rules : ExprRules) (rounds : Nat) : Parser (Binder × List Param × List TypeExpr) := do
  let _ ← expect .kwFunc
  let b ← binder
  let _ ← expect .openParen
  let ps ← params rules rounds []
  let _ ← expect .closeParen
  return (b, ps, ← resultTypes rules rounds)

theorem function_eq (rules : ExprRules) (rounds : Nat) (inner : Parser Stmt) :
    function rules rounds inner = do
      let (b, ps, results) ← signature rules rounds
      return .func ⟨b.name, ps, results, ← block inner rounds⟩ b.pos := by
  unfold function signature
  simp only [bind_assoc, pure_bind]

theorem signature_moves (h : RulesMove R k rules rules') (hn : k ≤ n) (hn' : k ≤ n') :
    Moves R Anywhere k Never (signature rules n) (signature rules' n') := by
  unfold signature
  refine moves_expect nofun fun _ => binder_moves.any.bind fun b => moves_expect nofun fun _ => ?_
  refine (params_moves (h.within (by omega)) (by omega) (by omega) []).any.bind fun ps => ?_
  refine moves_expect nofun fun _ => ?_
  refine (resultTypes_moves (h.within ?_) ?_ ?_).any.bind fun _ => moves_pure trivial
  all_goals omega

theorem function_moves (h : RulesMove R k rules rules')
    (hs : Moves R Anywhere (k - 1) Never inner inner') (hn : k ≤ n) (hn' : k ≤ n') :
    Moves R Anywhere k Never (function rules n inner) (function rules' n' inner') := by
  rw [function_eq, function_eq]
  refine Moves.step (signature_moves h hn hn') fun _ => ?_
  refine (block_moves (hs.within ?_) ?_ ?_).any.bind fun _ => moves_pure trivial
  all_goals omega

theorem declaration_moves (helse : R.SameElse) (hn : k ≤ n) (hn' : k ≤ n') :
    Moves R Anywhere k Never (declaration n) (declaration n') := by
  have hrules : RulesMove R k (exprRules n) (exprRules n') := rulesMove_exprRules hn hn'
  have hstatement : Moves R Anywhere (k - 1) Never (statement n) (statement n') :=
    statement_moves helse (by omega) (by omega)
  unfold declaration
  refine moves_current fun t _ => ?_
  split
  · exact (function_moves hrules hstatement hn hn').anywhere
  · exact (varDecl_moves hrules hn hn').anywhere
  · exact (constDecl_moves hrules).anywhere
  · refine moves_ifShort ?_ moves_fail
    refine Moves.step (simpleStatement_moves hrules hn hn').anywhere fun s => moves_done

/-- Top level is a list of declarations that only the end of the file closes. -/
theorem declarations_eq_statementList (depth n : Nat) :
    declarations depth n = statementList (declaration depth) [] n := by
  induction n with
  | zero => rfl
  | succ n ih =>
    have hclosed : ∀ κ : Token.Kind, κ = .endOfFile ↔ κ = .endOfFile ∨ κ ∈ [] := by simp
    unfold declarations statementList
    rw [ih]
    refine bind_congr fun _ => bind_congr fun κ => ?_
    exact ite_congr (propext (hclosed κ)) (fun _ => rfl) fun _ => rfl

theorem declarations_moves (helse : R.SameElse) (hn : k ≤ n) (hn' : k ≤ n') (hm : k ≤ m)
    (hm' : k ≤ m') :
    Moves R Anywhere k (· = []) (declarations n m) (declarations n' m') := by
  rw [declarations_eq_statementList, declarations_eq_statementList]
  exact statementList_moves (declaration_moves helse hn hn') hm hm'

end Parser
end Treewalk
