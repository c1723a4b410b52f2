/-
# Expressions and written types

From loosest to tightest: `||`, `&&`, equality, relations, sums, products,
prefix operators. All binary operators group to the left. The rules for
nested expressions, types and element lists are gathered in `ExprRules`, one
value per bound on nesting: each nested construct comes after at least one
token of its own, so the number of tokens bounds the nesting.

Key definitions: `precedence`, `ExprRules`, `exprRules`.
-/
import Treewalk.Grammar.Cursor
import Treewalk.Tree

namespace Treewalk

/-- What a binary mark builds. -/
inductive Connective where
  | binary (op : BinaryOp)
  | logical (op : LogicalOp)
  deriving DecidableEq, Repr

/-- The node of two operands, placed where the left one begins. -/
def Connective.join (c : Connective) (lhs rhs : Expr) : Expr :=
  match c with
  | .binary op => .binary op lhs rhs lhs.pos
  | .logical op => .logical op lhs rhs lhs.pos

/-- The binary marks, loosest level first. -/
def precedence : List (List (Token.Kind × Connective)) :=
  [[(.orOr, .logical .or)],
   [(.andAnd, .logical .and)],
   [(.equalEqual, .binary .eq), (.notEqual, .binary .ne)],
   [(.less, .binary .lt), (.lessEqual, .binary .le), (.greater, .binary .gt),
    (.greaterEqual, .binary .ge)],
   [(.plus, .binary .add), (.minus, .binary .sub)],
   [(.star, .binary .mul), (.slash, .binary .div), (.percent, .binary .mod)]]

/-- The rules that nest. -/
structure ExprRules where
  expr : Parser Expr
  /-- An operand with its prefix operators. -/
  unary : Parser Expr
  type : Parser TypeExpr
  /-- A list of elements with its braces. -/
  elements : Parser (List Expr)

namespace Parser

/-- Further operands joined to `left` by the marks of one level. -/
def chain (marks : List (Token.Kind × Connective)) (operand : Parser Expr) :
    Nat → Expr → Parser Expr
  | 0, _ => exhausted
  | n + 1, left => do
    match marks.lookup (← kind) with
    | none => return left
    | some c =>
      let _ ← advance
      let right ← operand
      chain marks operand n (c.join left right)

/-- An expression of the given levels over `unary`. -/
def level (rounds : Nat) (unary : Parser Expr) :
    List (List (Token.Kind × Connective)) → Parser Expr
  | [] => unary
  | marks :: tighter => do
    let left ← level rounds unary tighter
    chain marks (level rounds unary tighter) rounds left

/-- Items separated by commas; a comma may end the list. Stops before `close`. -/
def commaList {α : Type} (close : Token.Kind) (item : Parser α) : Nat → Parser (List α)
  | 0 => exhausted
  | n + 1 => do
    if (← kind) = close then return []
    let a ← item
    if (← kind) ≠ .comma then return [a]
    let _ ← advance
    return a :: (← commaList close item n)

/-- One or more items separated by commas. -/
def commaList1 {α : Type} (item : Parser α) : Nat → Parser (List α)
  | 0 => exhausted
  | n + 1 => do
    let a ← item
    if (← kind) ≠ .comma then return [a]
    let _ ← advance
    return a :: (← commaList1 item n)

/-- Indices in brackets, as many as there are. -/
def indices (expr : Parser Expr) : Nat → Parser (List Expr)
  | 0 => exhausted
  | n + 1 => do
    if (← kind) ≠ .openBracket then return []
    let _ ← advance
    let i ← expr
    let _ ← expect .closeBracket
    return i :: (← indices expr n)

/-- The arguments of a call and their parentheses. -/
def arguments (expr : Parser Expr) (rounds : Nat) : Parser (List Expr) := do
  let _ ← expect .openParen
  let args ← commaList .closeParen expr rounds
  let _ ← expect .closeParen
  return args

/-- A name, a call, or an array element. A dotted name has to be called. -/
def nameExpr (expr : Parser Expr) (rounds : Nat) : Parser Expr := do
  let first ← advance
  let pos := first.pos
  if (← kind) = .dot then
    let _ ← advance
    let member ← expect .identifier
    let name := first.text ++ "." ++ member.text
    if (← kind) = .openParen then
      return .call name (← arguments expr rounds) pos
    failAt (.qualifiedNameNotCalled name) pos
  match ← kind with
  | .openParen => return .call first.text (← arguments expr rounds) pos
  | .openBracket => return .index first.text (← indices expr rounds) pos
  | _ => return .name first.text pos

/-- A written type. -/
def type (rules : ExprRules) : Parser TypeExpr := do
  let t ← current
  match t.kind with
  | .tyInt32 => let _ ← advance; return .int32
  | .tyFloat32 => let _ ← advance; return .float32
  | .tyBool => let _ ← advance; return .bool
  | .tyString => let _ ← advance; return .string
  | .tyRune => let _ ← advance; return .rune
  | .openBracket =>
    let _ ← advance
    let size ← rules.expr
    let _ ← expect .closeBracket
    return .array size (← rules.type)
  | .star => let _ ← advance; return .pointer (← rules.type)
  | _ => fail (.typeExpected t.describe)

/-- One element: an expression, or a nested list. -/
def element (rules : ExprRules) : Parser Expr := do
  let t ← current
  if t.kind = .openBrace then return .elements (← rules.elements) t.pos else rules.expr

/-- The elements between braces. Line ends are free around them, and a comma may end the list. -/
def elementItems (item : Parser Expr) : Nat → Parser (List Expr)
  | 0 => exhausted
  | n + 1 => do
    skipSemicolons
    if (← kind) = .closeBrace then return []
    let e ← item
    skipSemicolons
    if (← kind) ≠ .comma then return [e]
    let _ ← advance
    return e :: (← elementItems item n)

/-- A list of elements with its braces. -/
def elements (rules : ExprRules) (rounds : Nat) : Parser (List Expr) := do
  let _ ← expect .openBrace
  let items ← elementItems (element rules) rounds
  skipSemicolons
  let _ ← expect .closeBrace
  return items

/-- An operand without prefix operators. Parentheses leave no node. -/
def primary (rules : ExprRules) (rounds : Nat) : Parser Expr := do
  let t ← current
  match t.kind with
  | .int => let _ ← advance; return .int t.text t.pos
  | .float => let _ ← advance; return .float t.text t.pos
  | .str => let _ ← advance; return .str t.text t.pos
  | .rune => let _ ← advance; return .rune t.text t.pos
  | .kwTrue => let _ ← advance; return .bool true t.pos
  | .kwFalse => let _ ← advance; return .bool false t.pos
  | .kwNil => let _ ← advance; return .nil t.pos
  | .openParen =>
    let _ ← advance
    let e ← rules.expr
    let _ ← expect .closeParen
    return e
  | .openBracket =>
    let ty ← type rules
    return .array ty (← elements rules rounds) t.pos
  | .identifier => nameExpr rules.expr rounds
  | _ => fail (.unexpected t.describe)

/-- An operand with its prefix operators. -/
def unary (rules : ExprRules) (rounds : Nat) : Parser Expr := do
  let t ← current
  match t.kind with
  | .minus => let _ ← advance; return .unary .neg (← rules.unary) t.pos
  | .bang => let _ ← advance; return .unary .not (← rules.unary) t.pos
  | .star => let _ ← advance; return .deref (← rules.unary) t.pos
  | .ampersand =>
    let _ ← advance
    if (← kind) ≠ .identifier then fail .addressOfNonVariable
    return .addressOf (← advance).text t.pos
  | _ => primary rules rounds

/-- A whole expression. -/
def expression (rules : ExprRules) (rounds : Nat) : Parser Expr :=
  level rounds (unary rules rounds) precedence

end Parser

/-- The rules with nesting bounded by `n`. -/
def exprRules : Nat → ExprRules
  | 0 => ⟨Parser.exhausted, Parser.exhausted, Parser.exhausted, Parser.exhausted⟩
  | n + 1 =>
    { expr := fun c => Parser.expression (exprRules n) n c
      unary := fun c => Parser.unary (exprRules n) n c
      type := fun c => Parser.type (exprRules n) c
      elements := fun c => Parser.elements (exprRules n) n c }

end Treewalk
