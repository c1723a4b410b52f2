/-
# Outlines

The tree of a program as an indented listing, one part a line. A group opens
a level, indented by four blanks, and ends every part with a comma; a group
without parts stands on one line.

Key definitions: `Outline`, `Outline.render`, `Program.outline`.
-/
import Treewalk.Text.Visible
import Treewalk.Tree

namespace Treewalk

inductive Outline where
  | word (text : String)
  | field (name : String) (value : Outline)
  | group (opening closing : String) (parts : List Outline)

namespace Outline

mutual

/-- The listing of an outline whose first line is already indented. -/
def renderIn (indent : String) : Outline → String
  | word text => text
  | field name value => name ++ ": " ++ value.renderIn indent
  | group opening closing [] => opening ++ closing
  | group opening closing (p :: ps) =>
    opening ++ "\n" ++ partsIn (indent ++ "    ") (p :: ps) ++ indent ++ closing

/-- The listing of the parts of a group. -/
def partsIn (indent : String) : List Outline → String
  | [] => ""
  | p :: ps => indent ++ p.renderIn indent ++ ",\n" ++ partsIn indent ps

end

/-- The listing of an outline. -/
def render (o : Outline) : String := o.renderIn ""

def text (s : String) : Outline := word (Text.quoted s)

def number (n : Nat) : Outline := word (toString n)

def bool (b : Bool) : Outline := word (if b then "true" else "false")

def record (name : String) (fields : List (String × Outline)) : Outline :=
  group (name ++ " \x7b") "\x7d" (fields.map fun (k, v) => field k v)

def tagged (name : String) (parts : List Outline) : Outline := group (name ++ "(") ")" parts

def list (parts : List Outline) : Outline := group "[" "]" parts

def optional : Option Outline → Outline
  | none => word "None"
  | some o => tagged "Some" [o]

end Outline

open Outline

def Position.outline (p : Position) : Outline :=
  record "Position" [("line", number p.line), ("column", number p.column)]

def BinaryOp.outline : BinaryOp → Outline
  | add => word "Add"
  | sub => word "Sub"
  | mul => word "Mul"
  | div => word "Div"
  | mod => word "Mod"
  | eq => word "Eq"
  | ne => word "NotEq"
  | lt => word "Lt"
  | le => word "LtEq"
  | gt => word "Gt"
  | ge => word "GtEq"

def LogicalOp.outline : LogicalOp → Outline
  | and => word "And"
  | or => word "Or"

def UnaryOp.outline : UnaryOp → Outline
  | neg => word "Neg"
  | not => word "Not"

def AssignOp.outline : AssignOp → Outline
  | plain => word "Assign"
  | compound op => tagged "Compound" [op.outline]

def StepOp.outline : StepOp → Outline
  | increment => word "Inc"
  | decrement => word "Dec"

/-- An expression of the given kind. -/
def Outline.expr (kind : Outline) (pos : Position) : Outline :=
  record "Expr" [("kind", kind), ("pos", pos.outline)]

/-- A statement of the given kind. -/
def Outline.stmt (kind : Outline) (pos : Position) : Outline :=
  record "Stmt" [("kind", kind), ("pos", pos.outline)]

mutual

def Expr.outline : Expr → Outline
  | .int t pos => expr (tagged "IntLiteral" [text t]) pos
  | .float t pos => expr (tagged "FloatLiteral" [text t]) pos
  | .str t pos => expr (tagged "StringLiteral" [text t]) pos
  | .rune t pos => expr (tagged "RuneLiteral" [text t]) pos
  | .bool b pos => expr (tagged "BoolLiteral" [Outline.bool b]) pos
  | .nil pos => expr (word "NilLiteral") pos
  | .name x pos => expr (tagged "Identifier" [text x]) pos
  | .binary op lhs rhs pos =>
    expr (record "Binary" [("lhs", lhs.outline), ("op", op.outline), ("rhs", rhs.outline)]) pos
  | .logical op lhs rhs pos =>
    expr (record "Logical" [("lhs", lhs.outline), ("op", op.outline), ("rhs", rhs.outline)]) pos
  | .unary op operand pos =>
    expr (record "Unary" [("op", op.outline), ("operand", operand.outline)]) pos
  | .addressOf x pos => expr (tagged "AddressOf" [text x]) pos
  | .deref operand pos => expr (tagged "Deref" [operand.outline]) pos
  | .call callee args pos =>
    expr (record "Call" [("callee", text callee), ("args", list (Expr.outlines args))]) pos
  | .index x indices pos =>
    expr (record "Index" [("name", text x), ("indices", list (Expr.outlines indices))]) pos
  | .array type elements pos =>
    expr (record "ArrayLiteral" [("ty", type.outline),
      ("elements", list (Expr.outlines elements))]) pos
  | .elements items pos => expr (tagged "CompositeList" [list (Expr.outlines items)]) pos

def Expr.outlines : List Expr → List Outline
  | [] => []
  | e :: es => e.outline :: Expr.outlines es

def TypeExpr.outline : TypeExpr → Outline
  | .int32 => word "Int32"
  | .float32 => word "Float32"
  | .bool => word "Bool"
  | .string => word "String"
  | .rune => word "Rune"
  | .array size elem => record "Array" [("size", size.outline), ("elem", elem.outline)]
  | .pointer target => tagged "Pointer" [target.outline]

end

def Binder.outline (b : Binder) : Outline := group "(" ")" [text b.name, b.pos.outline]

def Target.outline : Target → Outline
  | name x => tagged "Identifier" [text x]
  | deref x => tagged "Deref" [text x]
  | index x indices =>
    record "Index" [("name", text x), ("indices", list (indices.map Expr.outline))]

def Param.outline (p : Param) : Outline :=
  record "Param" [("name", text p.name), ("ty", p.type.outline), ("pos", p.pos.outline)]

mutual

def Stmt.outline : Stmt → Outline
  | .varDecl names type values pos =>
    stmt (record "VarDeclaration" [("names", list (names.map Binder.outline)),
      ("var_type", optional (type.map TypeExpr.outline)),
      ("values", list (values.map Expr.outline))]) pos
  | .constDecl x type value pos =>
    stmt (record "ConstDeclaration" [("name", text x),
      ("var_type", optional (type.map TypeExpr.outline)), ("value", value.outline)]) pos
  | .shortDecl names values pos =>
    stmt (record "ShortVarDeclaration" [("names", list (names.map Binder.outline)),
      ("values", list (values.map Expr.outline))]) pos
  | .assign target op value pos =>
    stmt (record "Assignment" [("target", target.outline), ("op", op.outline),
      ("value", value.outline)]) pos
  | .step target op pos =>
    stmt (record "IncDec" [("target", target.outline), ("op", op.outline)]) pos
  | .expr e pos => stmt (tagged "Expression" [e.outline]) pos
  | .block body pos => stmt (tagged "Block" [list (Stmt.outlines body)]) pos
  | .ifElse branches otherwise pos =>
    stmt (record "If" [("branches", list (Stmt.branchOutlines branches)),
      ("else_block", match otherwise with
        | none => optional none
        | some body => optional (some (list (Stmt.outlines body))))]) pos
  | .loop init condition post body pos =>
    stmt (record "For" [
      ("init", match init with
        | none => optional none
        | some s => optional (some s.outline)),
      ("condition", optional (condition.map Expr.outline)),
      ("post", match post with
        | none => optional none
        | some s => optional (some s.outline)),
      ("body", list (Stmt.outlines body))]) pos
  | .switch subject clauses otherwise pos =>
    stmt (record "Switch" [("subject", subject.outline),
      ("cases", list (Stmt.clauseOutlines clauses)),
      ("default", match otherwise with
        | none => optional none
        | some body => optional (some (list (Stmt.outlines body))))]) pos
  | .breakStmt pos => stmt (word "Break") pos
  | .continueStmt pos => stmt (word "Continue") pos
  | .returnStmt values pos => stmt (tagged "Return" [list (values.map Expr.outline)]) pos
  | .func ⟨name, params, results, body⟩ pos =>
    stmt (tagged "FnDeclaration" [record "FnDeclaration" [("name", text name),
      ("params", list (params.map Param.outline)),
      ("return_types", list (results.map TypeExpr.outline)),
      ("body", list (Stmt.outlines body))]]) pos

def Stmt.outlines : List Stmt → List Outline
  | [] => []
  | s :: ss => s.outline :: Stmt.outlines ss

def Stmt.branchOutlines : List (Branch Stmt) → List Outline
  | [] => []
  | ⟨condition, body⟩ :: rest =>
    record "IfBranch" [("condition", condition.outline), ("body", list (Stmt.outlines body))] ::
      Stmt.branchOutlines rest

def Stmt.clauseOutlines : List (Clause Stmt) → List Outline
  | [] => []
  | ⟨values, body, pos⟩ :: rest =>
    record "SwitchCase" [("values", list (values.map Expr.outline)),
      ("body", list (Stmt.outlines body)), ("pos", pos.outline)] :: Stmt.clauseOutlines rest

end

def Program.outline (p : Program) : Outline :=
  record "Program" [("declarations", list (Stmt.outlines p.declarations))]

end Treewalk
