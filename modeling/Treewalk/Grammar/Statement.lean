/-
# Statements

Declarations, simple statements, control flow and function declarations. A
list of statements goes on after a bad one: its fault is recorded and the
tokens up to its end are skipped.

Key definitions: `Parser.statementList`, `Parser.simpleStatement`,
`Parser.statement`, `Parser.function`.
-/
import Treewalk.Grammar.Expression

namespace Treewalk

namespace Parser

def binder : Parser Binder := do
  let t ← expect .identifier
  return ⟨t.text, t.pos⟩

/-- A type, if one begins here. -/
def type? (rules : ExprRules) : Parser (Option TypeExpr) := do
  if (← kind).startsType then return some (← rules.type) else return none

/-- `var` names, a type or values, or both. -/
def varDecl (rules : ExprRules) (rounds : Nat) : Parser Stmt := do
  let start ← expect .kwVar
  let names ← commaList1 binder rounds
  let ty ← type? rules
  let values ←
    if (← kind) = .equal then do
      let _ ← advance
      commaList1 rules.expr rounds
    else pure []
  if ty.isNone ∧ values.isEmpty then fail (.untypedVariable (names.head?.elim "" Binder.name))
  statementEnd
  return .varDecl names ty values start.pos

/-- `const`, a name, an optional type and a value. It stands where its name stands. -/
def constDecl (rules : ExprRules) : Parser Stmt := do
  let _ ← expect .kwConst
  let b ← binder
  let ty ← type? rules
  let _ ← expect .equal
  let value ← rules.expr
  statementEnd
  return .constDecl b.name ty value b.pos

/-- Whether names separated by commas and then `:=` lie ahead. -/
def startsShort : List Token → Bool
  | a :: b :: rest =>
    a.kind == .identifier && (b.kind == .colonEqual || (b.kind == .comma && startsShort rest))
  | _ => false

/-- The target an expression denotes on the left of an assignment. -/
def target? : Expr → Option Target
  | .name x _ => some (.name x)
  | .index x indices _ => some (.index x indices)
  | .deref (.name x _) _ => some (.deref x)
  | _ => none

def target (e : Expr) : Parser Target :=
  match target? e with
  | some t => return t
  | none => failAt .notAssignable e.pos

/-- The assignment a mark stands for, by the operator it holds. -/
def assignOp (text : String) : AssignOp :=
  match text with
  | "+" => .compound .add
  | "-" => .compound .sub
  | "*" => .compound .mul
  | "/" => .compound .div
  | _ => .plain

/-- A short declaration, an assignment, a step or an expression: what a loop header may hold. -/
def simpleStatement (rules : ExprRules) (rounds : Nat) : Parser Stmt := do
  let pos := (← current).pos
  if startsShort (← get).tokens then
    let names ← commaList1 binder rounds
    let _ ← expect .colonEqual
    return .shortDecl names (← commaList1 rules.expr rounds) pos
  let left ← rules.expr
  match ← kind with
  | .equal | .compoundAssign =>
    let t ← target left
    let op := assignOp (← advance).text
    return .assign t op (← rules.expr) pos
  | .increment =>
    let t ← target left
    let _ ← advance
    return .step t .increment pos
  | .decrement =>
    let t ← target left
    let _ ← advance
    return .step t .decrement pos
  | _ => return .expr left pos

/-- Statements up to one of the closing tokens, which is left. -/
def statementList (statement : Parser Stmt) (closing : List Token.Kind) :
    Nat → Parser (List Stmt)
  | 0 => exhausted
  | n + 1 => do
    skipSemicolons
    let k ← kind
    if k = .endOfFile ∨ k ∈ closing then return []
    match ← recovering closing statement with
    | some s => return s :: (← statementList statement closing n)
    | none => statementList statement closing n

/-- Statements between braces. -/
def block (statement : Parser Stmt) (rounds : Nat) : Parser (List Stmt) := do
  let _ ← expect .openBrace
  let body ← statementList statement [.closeBrace] rounds
  let _ ← expect .closeBrace
  return body

/-- A condition and its block. -/
def branch (rules : ExprRules) (statement : Parser Stmt) (rounds : Nat) : Parser (Branch Stmt) := do
  let condition ← rules.expr
  return ⟨condition, ← block statement rounds⟩

/-- Whether `else` comes next. It may begin the next line: the line end before it is dropped. -/
def elseAhead : Parser Bool := do
  let t ← current
  if t.kind = .semicolon ∧ t.text = "\n" ∧ ((← get).ahead 1).kind = .kwElse then
    let _ ← advance
  return (← kind) = .kwElse

/-- The further arms of an `if`. -/
def elseParts (rules : ExprRules) (statement : Parser Stmt) (rounds : Nat) :
    Nat → Parser (List (Branch Stmt) × Option (List Stmt))
  | 0 => exhausted
  | n + 1 => do
    if ← elseAhead then
      let _ ← advance
      if (← kind) = .kwIf then
        let _ ← advance
        let b ← branch rules statement rounds
        let (bs, otherwise) ← elseParts rules statement rounds n
        return (b :: bs, otherwise)
      else return ([], some (← block statement rounds))
    else return ([], none)

def ifElse (rules : ExprRules) (statement : Parser Stmt) (rounds : Nat) : Parser Stmt := do
  let start ← expect .kwIf
  let b ← branch rules statement rounds
  let (bs, otherwise) ← elseParts rules statement rounds rounds
  return .ifElse (b :: bs) otherwise start.pos

/-- The header of a loop. -/
structure Header where
  init : Option Stmt
  condition : Option Expr
  post : Option Stmt

/-- The condition and the post statement of a loop, from the separator after `init` on. -/
def clauses (rules : ExprRules) (rounds : Nat) (init : Option Stmt) : Parser Header := do
  let _ ← expect .semicolon
  let condition ← if (← kind) = .semicolon then pure none else some <$> rules.expr
  let _ ← expect .semicolon
  let post ← if (← kind) = .openBrace then pure none else some <$> simpleStatement rules rounds
  return ⟨init, condition, post⟩

/-- Nothing, a condition, or three parts with separators. -/
def header (rules : ExprRules) (rounds : Nat) : Parser Header := do
  match ← kind with
  | .openBrace => return ⟨none, none, none⟩
  | .semicolon => clauses rules rounds none
  | _ =>
    let first ← simpleStatement rules rounds
    if (← kind) = .semicolon then clauses rules rounds (some first)
    else
      match first with
      | .expr condition _ => return ⟨none, some condition, none⟩
      | _ => fail (.expected (Token.Kind.label .semicolon) (← current).describe)

def loop (rules : ExprRules) (statement : Parser Stmt) (rounds : Nat) : Parser Stmt := do
  let start ← expect .kwFor
  let h ← header rules rounds
  return .loop h.init h.condition h.post (← block statement rounds) start.pos

/-- The statements of a clause, up to the next clause or the closing brace. -/
def clauseBody (statement : Parser Stmt) (rounds : Nat) : Parser (List Stmt) :=
  statementList statement [.kwCase, .kwDefault, .closeBrace] rounds

/-- The clauses of a `switch`. Of several defaults the first counts; the others are faults. -/
def switchClauses (rules : ExprRules) (statement : Parser Stmt) (rounds : Nat) :
    Nat → Option (List Stmt) → Parser (List (Clause Stmt) × Option (List Stmt))
  | 0, _ => exhausted
  | n + 1, otherwise => do
    skipSemicolons
    let t ← current
    match t.kind with
    | .kwCase =>
      let _ ← advance
      let values ← commaList1 rules.expr rounds
      let _ ← expect .colon
      let body ← clauseBody statement rounds
      let (cs, otherwise) ← switchClauses rules statement rounds n otherwise
      return (⟨values, body, t.pos⟩ :: cs, otherwise)
    | .kwDefault =>
      let _ ← advance
      let _ ← expect .colon
      let body ← clauseBody statement rounds
      if otherwise.isSome then
        modify (·.record .secondDefault t.pos)
        switchClauses rules statement rounds n otherwise
      else switchClauses rules statement rounds n (some body)
    | .closeBrace => return ([], otherwise)
    | _ => fail (.expected "'case' or 'default'" t.describe)

def switch (rules : ExprRules) (statement : Parser Stmt) (rounds : Nat) : Parser Stmt := do
  let start ← expect .kwSwitch
  let subject ← rules.expr
  let _ ← expect .openBrace
  let (cs, otherwise) ← switchClauses rules statement rounds rounds none
  let _ ← expect .closeBrace
  return .switch subject cs otherwise start.pos

/-- The values of a `return`, which may have none. -/
def returnStmt (rules : ExprRules) (rounds : Nat) : Parser Stmt := do
  let start ← expect .kwReturn
  let values ←
    match ← kind with
    | .semicolon | .closeBrace | .kwCase | .kwDefault | .endOfFile => pure []
    | _ => commaList1 rules.expr rounds
  statementEnd
  return .returnStmt values start.pos

/-- A simple statement by itself: an expression has to be a call, or it would have no effect. -/
def plainStatement (rules : ExprRules) (rounds : Nat) : Parser Stmt := do
  let s ← simpleStatement rules rounds
  match s with
  | .expr (.call ..) _ => statementEnd
  | .expr e _ => failAt .unusedExpression e.pos
  | _ => statementEnd
  return s

/-- A statement of a block; `inner` reads the statements nested in it. -/
def statementWith (rules : ExprRules) (rounds : Nat) (inner : Parser Stmt) : Parser Stmt := do
  let t ← current
  match t.kind with
  | .kwVar => varDecl rules rounds
  | .kwConst => constDecl rules
  | .kwIf => ifElse rules inner rounds
  | .kwFor => loop rules inner rounds
  | .kwSwitch => switch rules inner rounds
  | .openBrace => return .block (← block inner rounds) t.pos
  | .kwFunc => fail (.nestedFunction ((← get).ahead 1).text)
  | .kwBreak =>
    let _ ← advance
    statementEnd
    return .breakStmt t.pos
  | .kwContinue =>
    let _ ← advance
    statementEnd
    return .continueStmt t.pos
  | .kwReturn => returnStmt rules rounds
  | _ => plainStatement rules rounds

/-- A statement of a block, with nesting bounded by `n`. -/
def statement : Nat → Parser Stmt
  | 0 => exhausted
  | n + 1 => fun c => statementWith (exprRules (n + 1)) (n + 1) (statement n) c

/-- Parameters up to the closing parenthesis. Names without a type wait for the next type. -/
def params (rules : ExprRules) : Nat → List Binder → Parser (List Param)
  | 0, _ => exhausted
  | n + 1, waiting => do
    if (← kind) = .closeParen then
      match waiting with
      | [] => return []
      | b :: _ => fail (.untypedParameter b.name)
    let waiting := waiting ++ [← binder]
    match ← kind with
    | .comma =>
      let _ ← advance
      params rules n waiting
    | .closeParen => fail (.untypedParameter (waiting.head?.elim "" Binder.name))
    | _ =>
      let ty ← rules.type
      let typed := waiting.map fun b => Param.mk b.name ty b.pos
      if (← kind) ≠ .comma then return typed
      let _ ← advance
      return typed ++ (← params rules n [])

/-- No result type, one, or a list in parentheses. -/
def resultTypes (rules : ExprRules) (rounds : Nat) : Parser (List TypeExpr) := do
  let k ← kind
  if k = .openParen then
    let _ ← advance
    let types ← commaList .closeParen rules.type rounds
    let _ ← expect .closeParen
    return types
  else if k.startsType then return [← rules.type]
  else return []

/-- A function declaration. It stands where its name stands. -/
def function (rules : ExprRules) (rounds : Nat) (inner : Parser Stmt) : Parser Stmt := do
  let _ ← expect .kwFunc
  let b ← binder
  let _ ← expect .openParen
  let ps ← params rules rounds []
  let _ ← expect .closeParen
  let results ← resultTypes rules rounds
  return .func ⟨b.name, ps, results, ← block inner rounds⟩ b.pos

end Parser

end Treewalk
