/-
# Programs as they are written

A program is written with one statement a line. Every operand, argument,
index, element and array size that is itself compound stands in parentheses,
so that neither precedence nor grouping matters. `else` follows the closing
brace on its line.

Not every tree is the tree of a source. Those that the parser can build are
`isWritten`: names are no reserved words, literals have the text of a
literal, lists of elements occur in array literals only, an expression by
itself is a call, functions are declared at top level, and lists that need an
item have one. Positions do not matter: `unplaced` takes them away.

Key definitions: `Expr.words`, `Stmt.lines`, `Program.render`,
`Expr.isWritten`, `Stmt.isWritten`, `Program.isWritten`, `Expr.unplaced`,
`Program.unplaced`.
-/
import Treewalk.Proofs.RoundTrip.Line
import Treewalk.Tree

namespace Treewalk

/-! ### Words of fixed spelling -/

namespace Word

def name (x : String) : Word := ⟨.identifier, x⟩

def openParen : Word := ⟨.openParen, "("⟩
def closeParen : Word := ⟨.closeParen, ")"⟩
def openBracket : Word := ⟨.openBracket, "["⟩
def closeBracket : Word := ⟨.closeBracket, "]"⟩
def openBrace : Word := ⟨.openBrace, "\x7b"⟩
def closeBrace : Word := ⟨.closeBrace, "\x7d"⟩
def comma : Word := ⟨.comma, ","⟩
def colon : Word := ⟨.colon, ":"⟩
def dot : Word := ⟨.dot, "."⟩
def semicolon : Word := ⟨.semicolon, ";"⟩
def star : Word := ⟨.star, "*"⟩
def ampersand : Word := ⟨.ampersand, "&"⟩
def equal : Word := ⟨.equal, "="⟩
def colonEqual : Word := ⟨.colonEqual, ":="⟩
def kwVar : Word := ⟨.kwVar, "var"⟩
def kwConst : Word := ⟨.kwConst, "const"⟩
def kwFunc : Word := ⟨.kwFunc, "func"⟩
def kwIf : Word := ⟨.kwIf, "if"⟩
def kwElse : Word := ⟨.kwElse, "else"⟩
def kwFor : Word := ⟨.kwFor, "for"⟩
def kwSwitch : Word := ⟨.kwSwitch, "switch"⟩
def kwCase : Word := ⟨.kwCase, "case"⟩
def kwDefault : Word := ⟨.kwDefault, "default"⟩
def kwBreak : Word := ⟨.kwBreak, "break"⟩
def kwContinue : Word := ⟨.kwContinue, "continue"⟩
def kwReturn : Word := ⟨.kwReturn, "return"⟩

def bool (b : Bool) : Word := if b then ⟨.kwTrue, "true"⟩ else ⟨.kwFalse, "false"⟩

def nil : Word := ⟨.kwNil, "nil"⟩

end Word

def BinaryOp.kind : BinaryOp → Token.Kind
  | add => .plus
  | sub => .minus
  | mul => .star
  | div => .slash
  | mod => .percent
  | eq => .equalEqual
  | ne => .notEqual
  | lt => .less
  | le => .lessEqual
  | gt => .greater
  | ge => .greaterEqual

def BinaryOp.word (op : BinaryOp) : Word := ⟨op.kind, op.symbol⟩

def LogicalOp.word : LogicalOp → Word
  | and => ⟨.andAnd, "&&"⟩
  | or => ⟨.orOr, "||"⟩

def UnaryOp.word : UnaryOp → Word
  | neg => ⟨.minus, "-"⟩
  | not => ⟨.bang, "!"⟩

def AssignOp.word : AssignOp → Word
  | plain => .equal
  | compound op => ⟨.compoundAssign, op.symbol⟩

def StepOp.word : StepOp → Word
  | increment => ⟨.increment, "++"⟩
  | decrement => ⟨.decrement, "--"⟩

/-! ### Expressions and types -/

/-- Whether an expression is made of operands, so that it needs parentheses as an operand. -/
def Expr.isCompound : Expr → Bool
  | binary .. | logical .. | unary .. | addressOf .. | deref .. => true
  | _ => false

/-- Words in parentheses, if they need them. -/
def grouped (needed : Bool) (ws : List Word) : List Word :=
  if needed then .openParen :: ws ++ [.closeParen] else ws

/-- The words of a callee, which may be a name of a name. -/
def calleeWords (callee : String) : List Word :=
  match callee.toList.dropWhile (· != '.') with
  | [] => [.name callee]
  | _ :: member =>
    [.name (String.ofList (callee.toList.takeWhile (· != '.'))), .dot, .name (String.ofList member)]

mutual

/-- The words of an expression. -/
def Expr.words : Expr → List Word
  | .int text _ => [⟨.int, text⟩]
  | .float text _ => [⟨.float, text⟩]
  | .str raw _ => [⟨.str, raw⟩]
  | .rune raw _ => [⟨.rune, raw⟩]
  | .bool value _ => [.bool value]
  | .nil _ => [.nil]
  | .name x _ => [.name x]
  | .binary op lhs rhs _ =>
    grouped lhs.isCompound lhs.words ++ op.word :: grouped rhs.isCompound rhs.words
  | .logical op lhs rhs _ =>
    grouped lhs.isCompound lhs.words ++ op.word :: grouped rhs.isCompound rhs.words
  | .unary op operand _ => op.word :: grouped operand.isCompound operand.words
  | .addressOf x _ => [.ampersand, .name x]
  | .deref operand _ => .star :: grouped operand.isCompound operand.words
  | .call callee args _ =>
    calleeWords callee ++ .openParen :: Expr.listWords args ++ [.closeParen]
  | .index x indices _ => .name x :: Expr.indexWords indices
  | .array type elements _ =>
    type.words ++ .openBrace :: Expr.listWords elements ++ [.closeBrace]
  | .elements items _ => .openBrace :: Expr.listWords items ++ [.closeBrace]

/-- Operands, with commas between them. -/
def Expr.listWords : List Expr → List Word
  | [] => []
  | [e] => grouped e.isCompound e.words
  | e :: e' :: es => grouped e.isCompound e.words ++ .comma :: Expr.listWords (e' :: es)

/-- Operands, each in brackets. -/
def Expr.indexWords : List Expr → List Word
  | [] => []
  | e :: es => .openBracket :: grouped e.isCompound e.words ++ .closeBracket :: Expr.indexWords es

/-- The words of a written type. -/
def TypeExpr.words : TypeExpr → List Word
  | .int32 => [⟨.tyInt32, "int32"⟩]
  | .float32 => [⟨.tyFloat32, "float32"⟩]
  | .bool => [⟨.tyBool, "bool"⟩]
  | .string => [⟨.tyString, "string"⟩]
  | .rune => [⟨.tyRune, "rune"⟩]
  | .array size elem =>
    .openBracket :: grouped size.isCompound size.words ++ .closeBracket :: elem.words
  | .pointer target => .star :: target.words

end

/-- The words of an expression as an operand. -/
def Expr.operandWords (e : Expr) : List Word := grouped e.isCompound e.words

/-- Lists of words, with commas between them. -/
def separated : List (List Word) → List Word
  | [] => []
  | [ws] => ws
  | ws :: ws' :: rest => ws ++ .comma :: separated (ws' :: rest)

/-- Expressions that are no operands, with commas between them. -/
def exprsWords (es : List Expr) : List Word := separated (es.map Expr.words)

def namesWords (xs : List Binder) : List Word := separated (xs.map fun x => [Word.name x.name])

/-! ### Statements -/

def Target.words : Target → List Word
  | .name x => [.name x]
  | .deref x => [.star, .name x]
  | .index x indices => .name x :: Expr.indexWords indices

def typeWords (t : Option TypeExpr) : List Word := t.elim [] TypeExpr.words

/-- The values of a declaration, if it has any. -/
def valueWords (es : List Expr) : List Word := if es.isEmpty then [] else .equal :: exprsWords es

/-- What a header of a loop may hold. -/
def Stmt.simpleWords : Stmt → List Word
  | .shortDecl names es _ => namesWords names ++ .colonEqual :: exprsWords es
  | .assign target op e _ => target.words ++ op.word :: e.words
  | .step target op _ => target.words ++ [op.word]
  | .expr e _ => e.words
  | _ => []

/-- The header of a loop: nothing, a condition, or three parts. -/
def headerWords (init : Option Stmt) (condition : Option Expr) (post : Option Stmt) : List Word :=
  match init, condition, post with
  | none, none, none => []
  | none, some e, none => e.words
  | init, condition, post =>
    init.elim [] Stmt.simpleWords ++ .semicolon :: condition.elim [] Expr.words ++
      .semicolon :: post.elim [] Stmt.simpleWords

def paramWords (p : Param) : List Word := .name p.name :: p.type.words

/-- No result type, one, or a list in parentheses. -/
def resultWords : List TypeExpr → List Word
  | [] => []
  | [t] => t.words
  | ts => .openParen :: separated (ts.map TypeExpr.words) ++ [.closeParen]

mutual

/-- The lines of a statement. -/
def Stmt.lines : Stmt → List Line
  | .varDecl names type es _ => [.kwVar :: namesWords names ++ typeWords type ++ valueWords es]
  | .constDecl x type e _ => [.kwConst :: .name x :: typeWords type ++ .equal :: e.words]
  | .shortDecl names es pos => [(Stmt.shortDecl names es pos).simpleWords]
  | .assign target op e pos => [(Stmt.assign target op e pos).simpleWords]
  | .step target op pos => [(Stmt.step target op pos).simpleWords]
  | .expr e pos => [(Stmt.expr e pos).simpleWords]
  | .block body _ => [.openBrace] :: Stmt.allLines body ++ [[.closeBrace]]
  | .ifElse branches otherwise _ =>
    Stmt.branchLines [.kwIf] branches ++ Stmt.elseLines otherwise
  | .loop init condition post body _ =>
    (.kwFor :: headerWords init condition post ++ [.openBrace]) :: Stmt.allLines body ++
      [[.closeBrace]]
  | .switch subject clauses otherwise _ =>
    (.kwSwitch :: subject.words ++ [.openBrace]) :: Stmt.clauseLines clauses ++
      Stmt.defaultLines otherwise ++ [[.closeBrace]]
  | .breakStmt _ => [[.kwBreak]]
  | .continueStmt _ => [[.kwContinue]]
  | .returnStmt es _ => [.kwReturn :: exprsWords es]
  | .func f _ =>
    (.kwFunc :: .name f.name :: .openParen :: separated (f.params.map paramWords) ++
      .closeParen :: resultWords f.results ++ [.openBrace]) :: Stmt.allLines f.body ++
      [[.closeBrace]]

def Stmt.allLines : List Stmt → List Line
  | [] => []
  | s :: ss => s.lines ++ Stmt.allLines ss

/-- The arms of an `if`, the first of which begins with the given words. All but the first begin
with the closing brace of the arm before. -/
def Stmt.branchLines (lead : List Word) : List (Branch Stmt) → List Line
  | [] => []
  | ⟨condition, body⟩ :: rest =>
    (lead ++ condition.words ++ [.openBrace]) :: Stmt.allLines body ++
      Stmt.branchLines [.closeBrace, .kwElse, .kwIf] rest

/-- The end of an `if`, with its last arm if it has one. -/
def Stmt.elseLines : Option (List Stmt) → List Line
  | none => [[.closeBrace]]
  | some body => [.closeBrace, .kwElse, .openBrace] :: Stmt.allLines body ++ [[.closeBrace]]

def Stmt.clauseLines : List (Clause Stmt) → List Line
  | [] => []
  | ⟨values, body, _⟩ :: rest =>
    (.kwCase :: exprsWords values ++ [.colon]) :: Stmt.allLines body ++ Stmt.clauseLines rest

def Stmt.defaultLines : Option (List Stmt) → List Line
  | none => []
  | some body => [.kwDefault, .colon] :: Stmt.allLines body

end

namespace Program

/-- The lines of a program. -/
def lines (p : Program) : List Line := Stmt.allLines p.declarations

/-- A program as it is written. -/
def render (p : Program) : String := sourceText p.lines

end Program

/-! ### Trees that the parser can build -/

mutual

/-- Whether the parser can build an expression. -/
def Expr.isWritten : Expr → Bool
  | .int text _ => Word.sound ⟨.int, text⟩
  | .float text _ => Word.sound ⟨.float, text⟩
  | .str raw _ => Word.sound ⟨.str, raw⟩
  | .rune raw _ => Word.sound ⟨.rune, raw⟩
  | .bool _ _ | .nil _ => true
  | .name x _ | .addressOf x _ => (Word.name x).sound
  | .binary _ lhs rhs _ | .logical _ lhs rhs _ => lhs.isWritten && rhs.isWritten
  | .unary _ operand _ | .deref operand _ => operand.isWritten
  | .call callee args _ => (calleeWords callee).all Word.sound && Expr.allWritten args
  | .index x indices _ =>
    (Word.name x).sound && !indices.isEmpty && Expr.allWritten indices
  | .array (.array size elem) elements _ =>
    size.isWritten && elem.isWritten && Expr.itemsWritten elements
  | .array .. | .elements .. => false

def Expr.allWritten : List Expr → Bool
  | [] => true
  | e :: es => e.isWritten && Expr.allWritten es

/-- The elements of an array literal, which may be lists of elements. -/
def Expr.itemsWritten : List Expr → Bool
  | [] => true
  | .elements items _ :: es => Expr.itemsWritten items && Expr.itemsWritten es
  | e :: es => e.isWritten && Expr.itemsWritten es

def TypeExpr.isWritten : TypeExpr → Bool
  | .int32 | .float32 | .bool | .string | .rune => true
  | .array size elem => size.isWritten && elem.isWritten
  | .pointer target => target.isWritten

end

def Target.isWritten : Target → Bool
  | .name x | .deref x => (Word.name x).sound
  | .index x indices => (Word.name x).sound && !indices.isEmpty && Expr.allWritten indices

/-- One name at least, and no reserved word. -/
def namesWritten (xs : List Binder) : Bool :=
  !xs.isEmpty && xs.all fun x => (Word.name x.name).sound

/-- What a header of a loop may hold. -/
def Stmt.isHeader : Stmt → Bool
  | .shortDecl names es _ => namesWritten names && !es.isEmpty && Expr.allWritten es
  | .assign target op e _ => target.isWritten && op.word.sound && e.isWritten
  | .step target _ _ => target.isWritten
  | .expr e _ => e.isWritten
  | _ => false

mutual

/-- Whether the parser can build a statement inside a function. -/
def Stmt.isWritten : Stmt → Bool
  | .varDecl names type es _ =>
    namesWritten names && type.all TypeExpr.isWritten && Expr.allWritten es &&
      (type.isSome || !es.isEmpty)
  | .constDecl x type e _ =>
    (Word.name x).sound && type.all TypeExpr.isWritten && e.isWritten
  | .shortDecl names es pos => (Stmt.shortDecl names es pos).isHeader
  | .assign target op e pos => (Stmt.assign target op e pos).isHeader
  | .step target op pos => (Stmt.step target op pos).isHeader
  | .expr (.call callee args pos) _ => (Expr.call callee args pos).isWritten
  | .expr .. => false
  | .block body _ => Stmt.allWritten body
  | .ifElse branches otherwise _ =>
    !branches.isEmpty && Stmt.branchesWritten branches && Stmt.otherwiseWritten otherwise
  | .loop init condition post body _ =>
    init.all Stmt.isHeader && condition.all Expr.isWritten && post.all Stmt.isHeader &&
      Stmt.allWritten body
  | .switch subject clauses otherwise _ =>
    subject.isWritten && Stmt.clausesWritten clauses && Stmt.otherwiseWritten otherwise
  | .breakStmt _ | .continueStmt _ => true
  | .returnStmt es _ => Expr.allWritten es
  | .func .. => false

def Stmt.allWritten : List Stmt → Bool
  | [] => true
  | s :: ss => s.isWritten && Stmt.allWritten ss

def Stmt.otherwiseWritten : Option (List Stmt) → Bool
  | none => true
  | some body => Stmt.allWritten body

def Stmt.branchesWritten : List (Branch Stmt) → Bool
  | [] => true
  | ⟨condition, body⟩ :: rest =>
    condition.isWritten && Stmt.allWritten body && Stmt.branchesWritten rest

def Stmt.clausesWritten : List (Clause Stmt) → Bool
  | [] => true
  | ⟨values, body, _⟩ :: rest =>
    !values.isEmpty && Expr.allWritten values && Stmt.allWritten body && Stmt.clausesWritten rest

end

def Func.isWritten (f : FuncDecl) : Bool :=
  (Word.name f.name).sound &&
    f.params.all (fun p => (Word.name p.name).sound && p.type.isWritten) &&
    f.results.all TypeExpr.isWritten && Stmt.allWritten f.body

/-- Whether the parser can build a declaration at top level. -/
def Stmt.isDeclaration : Stmt → Bool
  | .func f _ => f.isWritten
  | .varDecl names type es pos => (Stmt.varDecl names type es pos).isWritten
  | .constDecl x type e pos => (Stmt.constDecl x type e pos).isWritten
  | .shortDecl names es pos => (Stmt.shortDecl names es pos).isWritten
  | _ => false

/-- Whether the parser can build a program. -/
def Program.isWritten (p : Program) : Bool := p.declarations.all Stmt.isDeclaration

/-! ### Trees without positions -/

mutual

/-- An expression with all its positions taken away. -/
def Expr.unplaced : Expr → Expr
  | .int text _ => .int text .origin
  | .float text _ => .float text .origin
  | .str raw _ => .str raw .origin
  | .rune raw _ => .rune raw .origin
  | .bool value _ => .bool value .origin
  | .nil _ => .nil .origin
  | .name x _ => .name x .origin
  | .binary op lhs rhs _ => .binary op lhs.unplaced rhs.unplaced .origin
  | .logical op lhs rhs _ => .logical op lhs.unplaced rhs.unplaced .origin
  | .unary op operand _ => .unary op operand.unplaced .origin
  | .addressOf x _ => .addressOf x .origin
  | .deref operand _ => .deref operand.unplaced .origin
  | .call callee args _ => .call callee (Expr.allUnplaced args) .origin
  | .index x indices _ => .index x (Expr.allUnplaced indices) .origin
  | .array type elements _ => .array type.unplaced (Expr.allUnplaced elements) .origin
  | .elements items _ => .elements (Expr.allUnplaced items) .origin

def Expr.allUnplaced : List Expr → List Expr
  | [] => []
  | e :: es => e.unplaced :: Expr.allUnplaced es

def TypeExpr.unplaced : TypeExpr → TypeExpr
  | .array size elem => .array size.unplaced elem.unplaced
  | .pointer target => .pointer target.unplaced
  | t => t

end

def Target.unplaced : Target → Target
  | .index x indices => .index x (Expr.allUnplaced indices)
  | t => t

def Binder.unplaced (x : Binder) : Binder := ⟨x.name, .origin⟩

def Param.unplaced (p : Param) : Param := ⟨p.name, p.type.unplaced, .origin⟩

mutual

/-- A statement with all its positions taken away. -/
def Stmt.unplaced : Stmt → Stmt
  | .varDecl names type es _ =>
    .varDecl (names.map Binder.unplaced) (type.map TypeExpr.unplaced) (Expr.allUnplaced es) .origin
  | .constDecl x type e _ => .constDecl x (type.map TypeExpr.unplaced) e.unplaced .origin
  | .shortDecl names es _ =>
    .shortDecl (names.map Binder.unplaced) (Expr.allUnplaced es) .origin
  | .assign target op e _ => .assign target.unplaced op e.unplaced .origin
  | .step target op _ => .step target.unplaced op .origin
  | .expr e _ => .expr e.unplaced .origin
  | .block body _ => .block (Stmt.allUnplaced body) .origin
  | .ifElse branches otherwise _ =>
    .ifElse (Stmt.branchesUnplaced branches) (Stmt.otherwiseUnplaced otherwise) .origin
  | .loop init condition post body _ =>
    .loop (Stmt.optionUnplaced init) (condition.map Expr.unplaced) (Stmt.optionUnplaced post)
      (Stmt.allUnplaced body) .origin
  | .switch subject clauses otherwise _ =>
    .switch subject.unplaced (Stmt.clausesUnplaced clauses) (Stmt.otherwiseUnplaced otherwise)
      .origin
  | .breakStmt _ => .breakStmt .origin
  | .continueStmt _ => .continueStmt .origin
  | .returnStmt es _ => .returnStmt (Expr.allUnplaced es) .origin
  | .func f _ =>
    .func ⟨f.name, f.params.map Param.unplaced, f.results.map TypeExpr.unplaced,
      Stmt.allUnplaced f.body⟩ .origin

def Stmt.allUnplaced : List Stmt → List Stmt
  | [] => []
  | s :: ss => s.unplaced :: Stmt.allUnplaced ss

def Stmt.optionUnplaced : Option Stmt → Option Stmt
  | none => none
  | some s => some s.unplaced

def Stmt.otherwiseUnplaced : Option (List Stmt) → Option (List Stmt)
  | none => none
  | some body => some (Stmt.allUnplaced body)

def Stmt.branchesUnplaced : List (Branch Stmt) → List (Branch Stmt)
  | [] => []
  | ⟨condition, body⟩ :: rest =>
    ⟨condition.unplaced, Stmt.allUnplaced body⟩ :: Stmt.branchesUnplaced rest

def Stmt.clausesUnplaced : List (Clause Stmt) → List (Clause Stmt)
  | [] => []
  | ⟨values, body, _⟩ :: rest =>
    ⟨Expr.allUnplaced values, Stmt.allUnplaced body, .origin⟩ :: Stmt.clausesUnplaced rest

end

def Program.unplaced (p : Program) : Program := ⟨Stmt.allUnplaced p.declarations⟩

end Treewalk
