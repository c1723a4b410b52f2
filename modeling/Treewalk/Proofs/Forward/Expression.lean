/-
# Expressions and types move forward

Every rule for an expression or a written type reads a token at least; lists
that may be empty are empty where they read none. The bound on nesting grows
by one for each construct, which begins with a token of its own, and so do
the rounds of a loop: a bound of as many as there are tokens is always
enough, and a larger one changes nothing.

Key definitions: `Parser.RulesMove`.
Key theorems: `Parser.level_moves`, `Parser.primary_moves`,
`Parser.rulesMove_exprRules`.
-/
import Treewalk.Proofs.Forward.Skipping

namespace Treewalk
namespace Parser

variable {α : Type} {R : Fork} {At : Token → Prop} {k n n' : Nat}

/-! ### Lists -/

/-- Further operands of one level; without any, the first is the whole. -/
theorem chain_moves {marks : List (Token.Kind × Connective)} {operand operand' : Parser Expr}
    (hmarks : marks.lookup .endOfFile = none) (ho : Moves R Anywhere k Never operand operand')
    (hn : k ≤ n) (hn' : k ≤ n') (left : Expr) :
    Moves R Anywhere k (· = left) (chain marks operand n left) (chain marks operand' n' left) := by
  refine bounds_induction (motive := fun j n n' => j ≤ k → ∀ left, Moves R Anywhere j (· = left)
    (chain marks operand n left) (chain marks operand' n' left)) ?_ ?_ hn hn' (Nat.le_refl k) left
  · exact fun _ _ _ _ => moves_zero
  · intro j n n' _ _ ih hj left
    unfold chain
    refine moves_kind fun κ => ?_
    cases hlookup : marks.lookup κ with
    | none => exact moves_pure rfl
    | some c =>
      have hκ : κ ≠ .endOfFile := by
        rintro rfl
        rw [hmarks] at hlookup
        cases hlookup
      refine moves_takeKind hκ fun _ => ?_
      refine (ho.within (show j ≤ k by omega)).any.bind fun right => ?_
      exact (ih j (Nat.le_refl j) (by omega) _).any

theorem level_moves {unary unary' : Parser Expr} {levels : List (List (Token.Kind × Connective))}
    (hlevels : ∀ marks ∈ levels, marks.lookup .endOfFile = none)
    (hu : Moves R Anywhere k Never unary unary') (hn : k - 1 ≤ n) (hn' : k - 1 ≤ n') :
    Moves R Anywhere k Never (level n unary levels) (level n' unary' levels) := by
  induction levels with
  | nil => exact hu
  | cons marks tighter ih =>
    have htighter := ih fun marks hm => hlevels marks (List.mem_cons_of_mem _ hm)
    refine Moves.step htighter fun left => ?_
    exact (chain_moves (hlevels marks (by simp)) (htighter.within (Nat.sub_le k 1)) hn hn' left).any

theorem commaList_moves {close : Token.Kind} {item item' : Parser α}
    (hi : Moves R Anywhere k Never item item') (hn : k ≤ n) (hn' : k ≤ n') :
    Moves R Anywhere k (· = []) (commaList close item n) (commaList close item' n') := by
  refine bounds_induction (motive := fun j n n' => j ≤ k → Moves R Anywhere j (· = [])
    (commaList close item n) (commaList close item' n')) ?_ ?_ hn hn' (Nat.le_refl k)
  · exact fun _ _ _ => moves_zero
  · intro j n n' _ _ ih hj
    unfold commaList
    refine moves_kind fun κ => moves_ite (fun _ => moves_pure rfl) fun _ => ?_
    refine Moves.step (hi.within hj).anywhere fun a => moves_kind fun κ => ?_
    refine moves_ite (fun _ => moves_pure trivial) fun hcomma => ?_
    rw [Classical.not_not.mp hcomma]
    refine moves_takeKind nofun fun _ => ?_
    exact (ih (j - 1) (by omega) (by omega)).any.bind fun _ => moves_pure trivial

theorem commaList1_moves {item item' : Parser α} (hi : Moves R Anywhere k Never item item')
    (hn : k ≤ n) (hn' : k ≤ n') :
    Moves R Anywhere k Never (commaList1 item n) (commaList1 item' n') := by
  refine bounds_induction (motive := fun j n n' => j ≤ k → Moves R Anywhere j Never
    (commaList1 item n) (commaList1 item' n')) ?_ ?_ hn hn' (Nat.le_refl k)
  · exact fun _ _ _ => moves_zero
  · intro j n n' _ _ ih hj
    unfold commaList1
    refine Moves.step (hi.within hj) fun a => moves_kind fun κ => ?_
    refine moves_ite (fun _ => moves_pure trivial) fun hcomma => ?_
    rw [Classical.not_not.mp hcomma]
    refine moves_takeKind nofun fun _ => ?_
    exact (ih (j - 1) (by omega) (by omega)).any.bind fun _ => moves_pure trivial

theorem indices_moves {expr expr' : Parser Expr} (he : Moves R Anywhere k Never expr expr')
    (hn : k ≤ n) (hn' : k ≤ n') :
    Moves R Anywhere k (· = []) (indices expr n) (indices expr' n') := by
  refine bounds_induction (motive := fun j n n' => j ≤ k → Moves R Anywhere j (· = [])
    (indices expr n) (indices expr' n')) ?_ ?_ hn hn' (Nat.le_refl k)
  · exact fun _ _ _ => moves_zero
  · intro j n n' _ _ ih hj
    unfold indices
    refine moves_kind fun κ => moves_ite (fun _ => moves_pure rfl) fun hopen => ?_
    rw [Classical.not_not.mp hopen]
    refine moves_takeKind nofun fun _ => ?_
    refine (he.within (show j ≤ k by omega)).any.bind fun i => ?_
    refine moves_expect nofun fun _ => ?_
    exact (ih (j - 1) (by omega) (by omega)).any.bind fun _ => moves_pure trivial

/-- Elements, between which line ends are free. -/
theorem elementItems_moves {item item' : Parser Expr} (hi : Moves R Anywhere k Never item item')
    (hn : k ≤ n) (hn' : k ≤ n') :
    Moves R Anywhere k (· = []) (elementItems item n) (elementItems item' n') := by
  refine bounds_induction (motive := fun j n n' => j ≤ k → Moves R Anywhere j (· = [])
    (elementItems item n) (elementItems item' n')) ?_ ?_ hn hn' (Nat.le_refl k)
  · exact fun _ _ _ => moves_zero
  · intro j n n' _ _ ih hj
    unfold elementItems
    refine moves_skipSemicolons ?_
    refine moves_kind fun κ => moves_ite (fun _ => moves_pure rfl) fun _ => ?_
    refine Moves.step (hi.within hj).anywhere fun e => moves_skipSemicolons ?_
    refine moves_kind fun κ => moves_ite (fun _ => moves_pure trivial) fun hcomma => ?_
    rw [Classical.not_not.mp hcomma]
    refine moves_takeKind nofun fun _ => ?_
    exact (ih (j - 1) (by omega) (by omega)).any.bind fun _ => moves_pure trivial

/-! ### Names -/

theorem arguments_moves {expr expr' : Parser Expr} (he : Moves R Anywhere (k - 1) Never expr expr')
    (hn : k - 1 ≤ n) (hn' : k - 1 ≤ n') :
    Moves R Anywhere k Never (arguments expr n) (arguments expr' n') := by
  unfold arguments
  refine moves_expect nofun fun _ => ?_
  refine (commaList_moves he hn hn').any.bind fun args => ?_
  exact moves_expect nofun fun _ => moves_pure trivial

/-- A name is read where one stands. -/
theorem nameExpr_moves {expr expr' : Parser Expr} (he : Moves R Anywhere (k - 1) Never expr expr')
    (hn : k - 1 ≤ n) (hn' : k - 1 ≤ n') :
    Moves R (·.kind = .identifier) k Never (nameExpr expr n) (nameExpr expr' n') := by
  have hcall : ∀ j, j ≤ k - 1 → Moves R Anywhere j Never (arguments expr n) (arguments expr' n') :=
    fun j hj => arguments_moves (he.within (by omega)) (by omega) (by omega)
  unfold nameExpr
  refine moves_advance (fun t ht => ht ▸ nofun) fun first _ => moves_kind fun κ => ?_
  refine moves_ite (fun hdot => ?_) fun _ => moves_kind fun κ => ?_
  · subst hdot
    refine moves_takeKind nofun fun _ => moves_expect nofun fun member => moves_kind fun κ => ?_
    refine moves_ite (fun _ => ?_) fun _ => moves_failAt_bind
    exact (hcall _ (by omega)).anywhere.any.bind fun _ => moves_pure trivial
  · split
    · exact (hcall _ (Nat.le_refl _)).anywhere.any.bind fun _ => moves_pure trivial
    · exact (indices_moves he hn hn').anywhere.any.bind fun _ => moves_pure trivial
    · exact moves_pure trivial

/-! ### Types, operands and whole expressions -/

/-- The rules that nest move, each behind a token at least. -/
structure RulesMove (R : Fork) (k : Nat) (rules rules' : ExprRules) : Prop where
  expr : Moves R Anywhere k Never rules.expr rules'.expr
  unary : Moves R Anywhere k Never rules.unary rules'.unary
  type : Moves R Anywhere k Never rules.type rules'.type
  elements : Moves R Anywhere k Never rules.elements rules'.elements

variable {rules rules' : ExprRules}

theorem RulesMove.within {j : Nat} (h : RulesMove R k rules rules') (hj : j ≤ k) :
    RulesMove R j rules rules' :=
  ⟨h.expr.within hj, h.unary.within hj, h.type.within hj, h.elements.within hj⟩

theorem type_moves (h : RulesMove R (k - 1) rules rules') :
    Moves R Anywhere k Never (type rules) (type rules') := by
  unfold type
  refine moves_current fun t _ => ?_
  split
  case h_6 hkind =>
    refine moves_take (hkind ▸ nofun) ?_
    refine h.expr.any.bind fun size => moves_expect nofun fun _ => ?_
    exact (h.type.within (by omega)).any.bind fun _ => moves_pure trivial
  case h_7 hkind =>
    refine moves_take (hkind ▸ nofun) ?_
    exact h.type.any.bind fun _ => moves_pure trivial
  case h_8 => exact moves_fail
  all_goals
    next hkind => exact moves_take (hkind ▸ nofun) (moves_pure trivial)

theorem element_moves (h : RulesMove R k rules rules') :
    Moves R Anywhere k Never (element rules) (element rules') := by
  unfold element
  refine moves_current fun t _ => moves_ite (fun _ => ?_) fun _ => h.expr.anywhere
  exact Moves.step h.elements.anywhere fun _ => moves_pure trivial

theorem elements_moves (h : RulesMove R (k - 1) rules rules') (hn : k - 1 ≤ n) (hn' : k - 1 ≤ n') :
    Moves R Anywhere k Never (elements rules n) (elements rules' n') := by
  unfold elements
  refine moves_expect nofun fun _ => ?_
  refine (elementItems_moves (element_moves h) hn hn').any.bind fun items => ?_
  exact moves_skipSemicolons (moves_expect nofun fun _ => moves_pure trivial)

theorem primary_moves (h : RulesMove R (k - 1) rules rules') (hn : k - 1 ≤ n) (hn' : k - 1 ≤ n') :
    Moves R Anywhere k Never (primary rules n) (primary rules' n') := by
  unfold primary
  refine moves_current fun t _ => ?_
  split
  case h_8 hkind =>
    refine moves_take (hkind ▸ nofun) ?_
    refine h.expr.any.bind fun e => ?_
    exact moves_expect nofun fun _ => moves_pure trivial
  case h_9 =>
    refine Moves.step (type_moves h).anywhere fun ty => ?_
    have hbody : Moves R Anywhere (k - 1) Never (elements rules n) (elements rules' n') :=
      elements_moves (h.within (by omega)) (by omega) (by omega)
    exact hbody.any.bind fun _ => moves_pure trivial
  case h_10 hkind =>
    refine (nameExpr_moves h.expr hn hn').mono ?_ (Nat.le_refl k) fun _ ha => ha
    rintro _ rfl
    exact hkind
  case h_11 => exact moves_fail
  all_goals
    next hkind => exact moves_take (hkind ▸ nofun) (moves_pure trivial)

theorem unary_moves (h : RulesMove R (k - 1) rules rules') (hn : k - 1 ≤ n) (hn' : k - 1 ≤ n') :
    Moves R Anywhere k Never (unary rules n) (unary rules' n') := by
  unfold unary
  refine moves_current fun t _ => ?_
  split
  case h_4 hkind =>
    refine moves_take (hkind ▸ nofun) ?_
    refine moves_kind fun κ => moves_ite (fun _ => moves_fail_bind) fun hname => ?_
    rw [Classical.not_not.mp hname]
    exact moves_takeKind nofun fun _ => moves_pure trivial
  case h_5 => exact (primary_moves h hn hn').anywhere
  all_goals
    next hkind =>
      refine moves_take (hkind ▸ nofun) ?_
      exact h.unary.any.bind fun _ => moves_pure trivial

theorem lookup_endOfFile : ∀ marks ∈ precedence, marks.lookup .endOfFile = none := by decide

theorem expression_moves (h : RulesMove R (k - 1) rules rules') (hn : k - 1 ≤ n)
    (hn' : k - 1 ≤ n') : Moves R Anywhere k Never (expression rules n) (expression rules' n') :=
  level_moves lookup_endOfFile (unary_moves h hn hn') hn hn'

/-- **Nesting never goes deeper than there are tokens,** and reads one token at least. -/
theorem rulesMove_exprRules (hn : k ≤ n) (hn' : k ≤ n') :
    RulesMove R k (exprRules n) (exprRules n') := by
  refine bounds_induction (motive := fun k n n' => RulesMove R k (exprRules n) (exprRules n'))
    ?_ ?_ hn hn'
  · exact fun _ _ => ⟨moves_zero, moves_zero, moves_zero, moves_zero⟩
  · intro k n n' hn hn' ih
    have hinner : RulesMove R k (exprRules n) (exprRules n') := ih k (Nat.le_refl k)
    exact ⟨expression_moves hinner hn hn', unary_moves hinner hn hn', type_moves hinner,
      elements_moves hinner hn hn'⟩

end Parser
end Treewalk
