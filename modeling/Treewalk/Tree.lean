/-
# The syntax tree

Programs as they are written: expressions, written types, statements. Every
node carries the position of its first token; a binary expression begins
where its left operand begins. Literals keep their source text and are read
only when they are evaluated. Array sizes in a written type are expressions,
so the size of an array is known only when its type is evaluated.

The tree is wider than the grammar: nothing here forbids a function inside a
block or a `break` outside a loop. What such a tree does is settled by the
evaluator.
-/
import Treewalk.Position

namespace Treewalk

inductive BinaryOp where
  | add | sub | mul | div | mod
  | eq | ne | lt | le | gt | ge
  deriving DecidableEq, Repr, Inhabited

def BinaryOp.symbol : BinaryOp → String
  | add => "+"
  | sub => "-"
  | mul => "*"
  | div => "/"
  | mod => "%"
  | eq => "=="
  | ne => "!="
  | lt => "<"
  | le => "<="
  | gt => ">"
  | ge => ">="

def BinaryOp.all : List BinaryOp := [add, sub, mul, div, mod, eq, ne, lt, le, gt, ge]

inductive LogicalOp where
  | and
  | or
  deriving DecidableEq, Repr, Inhabited

inductive UnaryOp where
  | neg
  | not
  deriving DecidableEq, Repr, Inhabited

/-- A plain assignment, or one that first applies an operator to the old content. -/
inductive AssignOp where
  | plain
  | compound (op : BinaryOp)
  deriving DecidableEq, Repr, Inhabited

inductive StepOp where
  | increment
  | decrement
  deriving DecidableEq, Repr, Inhabited

def StepOp.symbol : StepOp → String
  | increment => "++"
  | decrement => "--"

mutual

inductive Expr where
  | int (text : String) (pos : Position)
  | float (text : String) (pos : Position)
  /-- The text between the quotes, its escapes not yet decoded. -/
  | str (raw : String) (pos : Position)
  | rune (raw : String) (pos : Position)
  | bool (value : Bool) (pos : Position)
  | nil (pos : Position)
  | name (name : String) (pos : Position)
  | binary (op : BinaryOp) (lhs rhs : Expr) (pos : Position)
  | logical (op : LogicalOp) (lhs rhs : Expr) (pos : Position)
  | unary (op : UnaryOp) (operand : Expr) (pos : Position)
  | addressOf (name : String) (pos : Position)
  | deref (operand : Expr) (pos : Position)
  /-- A qualified callee such as `fmt.Println` is one dotted name. -/
  | call (callee : String) (args : List Expr) (pos : Position)
  | index (name : String) (indices : List Expr) (pos : Position)
  | array (type : TypeExpr) (elements : List Expr) (pos : Position)
  /-- A nested list of elements inside an array literal. -/
  | elements (items : List Expr) (pos : Position)

inductive TypeExpr where
  | int32
  | float32
  | bool
  | string
  | rune
  | array (size : Expr) (elem : TypeExpr)
  | pointer (target : TypeExpr)

end

instance : Inhabited Expr := ⟨.nil .origin⟩

instance : Inhabited TypeExpr := ⟨.int32⟩

def Expr.pos : Expr → Position
  | int _ pos | float _ pos | str _ pos | rune _ pos | bool _ pos | nil pos | name _ pos
  | binary _ _ _ pos | logical _ _ _ pos | unary _ _ pos | addressOf _ pos | deref _ pos
  | call _ _ pos | index _ _ pos | array _ _ pos | elements _ pos => pos

def TypeExpr.isPointer : TypeExpr → Bool
  | pointer _ => true
  | _ => false

/-- A declared name, with its own position. -/
structure Binder where
  name : String
  pos : Position
  deriving DecidableEq, Repr, Inhabited

/-- What an assignment writes to: a variable, the variable a pointer designates, an element. -/
inductive Target where
  | name (name : String)
  | deref (name : String)
  | index (name : String) (indices : List Expr)
  deriving Inhabited

/-- The variable a target starts from. -/
def Target.variable : Target → String
  | name x | deref x | index x _ => x

/-- One arm of an `if`: a condition and what runs when it holds. -/
structure Branch (σ : Type) where
  condition : Expr
  body : List σ

/-- One `case` of a `switch`. -/
structure Clause (σ : Type) where
  values : List Expr
  body : List σ
  pos : Position

structure Param where
  name : String
  type : TypeExpr
  pos : Position
  deriving Inhabited

/-- A pointer parameter takes the caller's pointer as it is. -/
def Param.byPointer (p : Param) : Bool := p.type.isPointer

structure Func (σ : Type) where
  name : String
  params : List Param
  results : List TypeExpr
  body : List σ

inductive Stmt where
  | varDecl (names : List Binder) (type : Option TypeExpr) (values : List Expr) (pos : Position)
  | constDecl (name : String) (type : Option TypeExpr) (value : Expr) (pos : Position)
  | shortDecl (names : List Binder) (values : List Expr) (pos : Position)
  | assign (target : Target) (op : AssignOp) (value : Expr) (pos : Position)
  | step (target : Target) (op : StepOp) (pos : Position)
  | expr (expr : Expr) (pos : Position)
  | block (body : List Stmt) (pos : Position)
  | ifElse (branches : List (Branch Stmt)) (otherwise : Option (List Stmt)) (pos : Position)
  | loop (init : Option Stmt) (condition : Option Expr) (post : Option Stmt) (body : List Stmt)
      (pos : Position)
  | switch (subject : Expr) (clauses : List (Clause Stmt)) (otherwise : Option (List Stmt))
      (pos : Position)
  | breakStmt (pos : Position)
  | continueStmt (pos : Position)
  | returnStmt (values : List Expr) (pos : Position)
  | func (decl : Func Stmt) (pos : Position)

instance : Inhabited Stmt := ⟨.breakStmt .origin⟩

def Stmt.pos : Stmt → Position
  | varDecl _ _ _ pos | constDecl _ _ _ pos | shortDecl _ _ pos | assign _ _ _ pos | step _ _ pos
  | expr _ pos | block _ pos | ifElse _ _ pos | loop _ _ _ _ pos | switch _ _ _ pos
  | breakStmt pos | continueStmt pos | returnStmt _ pos | func _ pos => pos

abbrev FuncDecl := Func Stmt

/-- A program is the list of its top-level statements. -/
structure Program where
  declarations : List Stmt
  deriving Inhabited

end Treewalk
