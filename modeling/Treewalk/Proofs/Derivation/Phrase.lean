/-
# The grammar

Which tokens are a phrase of the language, and of which tree. The relations
here say it rule by rule and without the parser: every token of a phrase is
part of a name or literal, an operator, a delimiter, a parenthesis around an
operand, a separator between statements or a comma that may end a list. The
tree is read off, positions included.

Binary operators bind at levels 1 to 6, from `||` to products, and prefix
operators at level 7. An operand to the left of an operator may be joined at
its level again, one to the right only at a tighter level: operators group to
the left.

Statements with a block at their end stand by themselves. Any other needs a
separator, a semicolon or the end of its line, unless it is the last of its
list.

Key definitions: `BinaryOp.tightness`, `LogicalOp.tightness`,
`Phrase.OfExpr`, `Phrase.OfType`, `Phrase.OfPlain`, `Phrase.OfBraced`,
`Phrase.OfFunc`, `Phrase.OfProgram`.
-/
import Treewalk.Proofs.RoundTrip.Written

namespace Treewalk

/-- How tightly an operator binds. -/
def BinaryOp.tightness : BinaryOp → Nat
  | eq | ne => 3
  | lt | le | gt | ge => 4
  | add | sub => 5
  | mul | div | mod => 6

def LogicalOp.tightness : LogicalOp → Nat
  | or => 1
  | and => 2

namespace Phrase

variable {α σ : Type}

/-! ### Lists -/

/-- Separators only, of which there may be any number. -/
def Separators (us : List Token) : Prop := ∀ t ∈ us, t.kind = .semicolon

/-- A phrase that may be missing. -/
inductive Optional (P : List Token → α → Prop) : List Token → Option α → Prop where
  | none : Optional P [] none
  | some {us a} : P us a → Optional P us (some a)

/-- One or more phrases with commas between them. -/
inductive Commas1 (P : List Token → α → Prop) : List Token → List α → Prop where
  | one {us a} : P us a → Commas1 P us [a]
  | more {us a c vs as} : P us a → c.kind = .comma → Commas1 P vs as →
      Commas1 P (us ++ c :: vs) (a :: as)

/-- Any number of phrases with commas between them. A comma may end the list. -/
inductive Commas (P : List Token → α → Prop) : List Token → List α → Prop where
  | none : Commas P [] []
  | one {us a} : P us a → Commas P us [a]
  | more {us a c vs as} : P us a → c.kind = .comma → Commas P vs as →
      Commas P (us ++ c :: vs) (a :: as)

/-- The elements between the braces of a list. Separators are free around them, and a comma may end
the list. -/
inductive Items (P : List Token → α → Prop) : List Token → List α → Prop where
  | none {ss} : Separators ss → Items P ss []
  | one {ss us a ss'} : Separators ss → P us a → Separators ss' → Items P (ss ++ us ++ ss') [a]
  | more {ss us a ss' c vs as} : Separators ss → P us a → Separators ss' → c.kind = .comma →
      Items P vs as → Items P (ss ++ us ++ ss' ++ c :: vs) (a :: as)

/-- Statements one after the other: `P` needs a separator unless it comes last, and `B` does not.
Further separators are free. -/
inductive Sequence (P B : List Token → σ → Prop) : List Token → List σ → Prop where
  | none {ss} : Separators ss → Sequence P B ss []
  | last {ss us s} : Separators ss → P us s → Sequence P B (ss ++ us) [s]
  | separated {ss us s t vs rest} : Separators ss → P us s → t.kind = .semicolon →
      Sequence P B vs rest → Sequence P B (ss ++ us ++ t :: vs) (s :: rest)
  | braced {ss us s vs rest} : Separators ss → B us s → Sequence P B vs rest →
      Sequence P B (ss ++ us ++ vs) (s :: rest)

/-! ### Expressions and types -/

mutual

/-- An expression in which operators outside parentheses bind at the given level or tighter. -/
inductive OfExpr : Nat → List Token → Expr → Prop where
  | int {l t} : t.kind = .int → OfExpr l [t] (.int t.text t.pos)
  | float {l t} : t.kind = .float → OfExpr l [t] (.float t.text t.pos)
  | str {l t} : t.kind = .str → OfExpr l [t] (.str t.text t.pos)
  | rune {l t} : t.kind = .rune → OfExpr l [t] (.rune t.text t.pos)
  | bool {l t b} : t.kind = (Word.bool b).kind → OfExpr l [t] (.bool b t.pos)
  | nil {l t} : t.kind = .kwNil → OfExpr l [t] (.nil t.pos)
  | name {l x} : x.kind = .identifier → OfExpr l [x] (.name x.text x.pos)
  | group {l o us e c} : o.kind = .openParen → OfExpr 1 us e → c.kind = .closeParen →
      OfExpr l (o :: us ++ [c]) e
  | binary {l op us a t vs b} : l ≤ op.tightness → OfExpr op.tightness us a → t.kind = op.kind →
      OfExpr (op.tightness + 1) vs b → OfExpr l (us ++ t :: vs) (.binary op a b a.pos)
  | logical {l op us a t vs b} : l ≤ op.tightness → OfExpr op.tightness us a →
      t.kind = op.word.kind → OfExpr (op.tightness + 1) vs b →
      OfExpr l (us ++ t :: vs) (.logical op a b a.pos)
  | unary {l op t us a} : t.kind = op.word.kind → OfExpr 7 us a →
      OfExpr l (t :: us) (.unary op a t.pos)
  | deref {l t us a} : t.kind = .star → OfExpr 7 us a → OfExpr l (t :: us) (.deref a t.pos)
  | addressOf {l t x} : t.kind = .ampersand → x.kind = .identifier →
      OfExpr l [t, x] (.addressOf x.text t.pos)
  | call {l x o us args c} : x.kind = .identifier → o.kind = .openParen → Commas (OfExpr 1) us args →
      c.kind = .closeParen → OfExpr l (x :: o :: us ++ [c]) (.call x.text args x.pos)
  | qualifiedCall {l x d m o us args c} : x.kind = .identifier → d.kind = .dot →
      m.kind = .identifier → o.kind = .openParen → Commas (OfExpr 1) us args →
      c.kind = .closeParen →
      OfExpr l (x :: d :: m :: o :: us ++ [c]) (.call (x.text ++ "." ++ m.text) args x.pos)
  | index {l x us i is} : x.kind = .identifier → OfIndices us (i :: is) →
      OfExpr l (x :: us) (.index x.text (i :: is) x.pos)
  | array {l o us size c vs elem ws es} : o.kind = .openBracket → OfExpr 1 us size →
      c.kind = .closeBracket → OfType vs elem → OfElements ws es →
      OfExpr l (o :: us ++ c :: vs ++ ws) (.array (.array size elem) es o.pos)

/-- Indices in brackets. -/
inductive OfIndices : List Token → List Expr → Prop where
  | none : OfIndices [] []
  | more {o us i c vs is} : o.kind = .openBracket → OfExpr 1 us i → c.kind = .closeBracket →
      OfIndices vs is → OfIndices (o :: us ++ c :: vs) (i :: is)

inductive OfType : List Token → TypeExpr → Prop where
  | int32 {t} : t.kind = .tyInt32 → OfType [t] .int32
  | float32 {t} : t.kind = .tyFloat32 → OfType [t] .float32
  | bool {t} : t.kind = .tyBool → OfType [t] .bool
  | string {t} : t.kind = .tyString → OfType [t] .string
  | rune {t} : t.kind = .tyRune → OfType [t] .rune
  | array {o us size c vs elem} : o.kind = .openBracket → OfExpr 1 us size →
      c.kind = .closeBracket → OfType vs elem → OfType (o :: us ++ c :: vs) (.array size elem)
  | pointer {t us ty} : t.kind = .star → OfType us ty → OfType (t :: us) (.pointer ty)

/-- An element of an array literal: an expression, or a list by itself. -/
inductive OfElement : List Token → Expr → Prop where
  | expr {us e} : OfExpr 1 us e → OfElement us e
  | list {o us es c} : o.kind = .openBrace → Items OfElement us es → c.kind = .closeBrace →
      OfElement (o :: us ++ [c]) (.elements es o.pos)

/-- A list of elements with its braces. -/
inductive OfElements : List Token → List Expr → Prop where
  | list {o us es c} : o.kind = .openBrace → Items OfElement us es → c.kind = .closeBrace →
      OfElements (o :: us ++ [c]) es

end

/-! ### Declarations and simple statements -/

/-- A declared name. -/
inductive OfBinder : List Token → Binder → Prop where
  | name {x} : x.kind = .identifier → OfBinder [x] ⟨x.text, x.pos⟩

/-- Initial values behind an equals sign, if there are any. -/
inductive OfValues : List Token → List Expr → Prop where
  | none : OfValues [] []
  | some {t us es} : t.kind = .equal → Commas1 (OfExpr 1) us es → OfValues (t :: us) es

/-- The expressions that stand for a target. -/
inductive Denotes : Expr → Target → Prop where
  | name {x pos} : Denotes (.name x pos) (.name x)
  | index {x is pos} : Denotes (.index x is pos) (.index x is)
  | deref {x pos pos'} : Denotes (.deref (.name x pos) pos') (.deref x)

/-- What a loop header may hold. It stands where its first token stands. -/
inductive OfSimple : List Token → Stmt → Prop where
  | shortDecl {t us names m vs values} : Commas1 OfBinder (t :: us) names → m.kind = .colonEqual →
      Commas1 (OfExpr 1) vs values → OfSimple (t :: us ++ m :: vs) (.shortDecl names values t.pos)
  | assign {t us e target op m vs value} : OfExpr 1 (t :: us) e → Denotes e target →
      m.word = AssignOp.word op → OfExpr 1 vs value →
      OfSimple (t :: us ++ m :: vs) (.assign target op value t.pos)
  | step {t us e target op m} : OfExpr 1 (t :: us) e → Denotes e target →
      m.kind = (StepOp.word op).kind → OfSimple (t :: us ++ [m]) (.step target op t.pos)
  | expr {t us e} : OfExpr 1 (t :: us) e → OfSimple (t :: us) (.expr e t.pos)

/-- Of the expressions, only a call is a statement. -/
def HasEffect : Stmt → Prop
  | .expr (.call ..) _ => True
  | .expr .. => False
  | _ => True

/-- A declaration of variables or of a constant. -/
inductive OfDecl : List Token → Stmt → Prop where
  | varDecl {k us names vs ty ws values} : k.kind = .kwVar → Commas1 OfBinder us names →
      Optional OfType vs ty → OfValues ws values → ty ≠ none ∨ values ≠ [] →
      OfDecl (k :: us ++ vs ++ ws) (.varDecl names ty values k.pos)
  | constDecl {k x us ty t vs value} : k.kind = .kwConst → x.kind = .identifier →
      Optional OfType us ty → t.kind = .equal → OfExpr 1 vs value →
      OfDecl (k :: x :: us ++ t :: vs) (.constDecl x.text ty value x.pos)

/-- A statement that needs a separator. -/
inductive OfPlain : List Token → Stmt → Prop where
  | decl {us s} : OfDecl us s → OfPlain us s
  | simple {us s} : OfSimple us s → HasEffect s → OfPlain us s
  | breakStmt {k} : k.kind = .kwBreak → OfPlain [k] (.breakStmt k.pos)
  | continueStmt {k} : k.kind = .kwContinue → OfPlain [k] (.continueStmt k.pos)
  | returnNone {k} : k.kind = .kwReturn → OfPlain [k] (.returnStmt [] k.pos)
  | returnSome {k us values} : k.kind = .kwReturn → Commas1 (OfExpr 1) us values →
      OfPlain (k :: us) (.returnStmt values k.pos)

/-! ### Statements with blocks -/

/-- `else`, on the same line or at the beginning of the next. -/
inductive ElseMark : List Token → Prop where
  | here {t} : t.kind = .kwElse → ElseMark [t]
  | nextLine {t t'} : t.word = .lineEnd → t'.kind = .kwElse → ElseMark [t, t']

/-- The header of a loop: nothing, a condition, or three parts of which each may be missing. -/
inductive OfHeader : List Token → Option Stmt → Option Expr → Option Stmt → Prop where
  | forever : OfHeader [] none none none
  | condition {us e} : OfExpr 1 us e → OfHeader us none (some e) none
  | clauses {us init t vs condition t' ws post} : Optional OfSimple us init → t.kind = .semicolon →
      Optional (OfExpr 1) vs condition → t'.kind = .semicolon → Optional OfSimple ws post →
      OfHeader (us ++ t :: vs ++ t' :: ws) init condition post

mutual

/-- A statement with a block at its end. -/
inductive OfBraced : List Token → Stmt → Prop where
  | block {o us body c} : o.kind = .openBrace → Sequence OfPlain OfBraced us body →
      c.kind = .closeBrace → OfBraced (o :: us ++ [c]) (.block body o.pos)
  | ifElse {k us condition vs body ws branches otherwise} : k.kind = .kwIf → OfExpr 1 us condition →
      OfBlock vs body → OfElse ws branches otherwise →
      OfBraced (k :: us ++ vs ++ ws) (.ifElse (⟨condition, body⟩ :: branches) otherwise k.pos)
  | loop {k us init condition post vs body} : k.kind = .kwFor → OfHeader us init condition post →
      OfBlock vs body → OfBraced (k :: us ++ vs) (.loop init condition post body k.pos)
  | switch {k us subject o vs clauses otherwise c} : k.kind = .kwSwitch → OfExpr 1 us subject →
      o.kind = .openBrace → OfClauses vs clauses otherwise → c.kind = .closeBrace →
      OfBraced (k :: us ++ o :: vs ++ [c]) (.switch subject clauses otherwise k.pos)

/-- Statements between braces. -/
inductive OfBlock : List Token → List Stmt → Prop where
  | braces {o us body c} : o.kind = .openBrace → Sequence OfPlain OfBraced us body →
      c.kind = .closeBrace → OfBlock (o :: us ++ [c]) body

/-- The further arms of an `if`. -/
inductive OfElse : List Token → List (Branch Stmt) → Option (List Stmt) → Prop where
  | none : OfElse [] [] none
  | last {us vs body} : ElseMark us → OfBlock vs body → OfElse (us ++ vs) [] (some body)
  | more {us k vs condition ws body xs branches otherwise} : ElseMark us → k.kind = .kwIf →
      OfExpr 1 vs condition → OfBlock ws body → OfElse xs branches otherwise →
      OfElse (us ++ k :: vs ++ ws ++ xs) (⟨condition, body⟩ :: branches) otherwise

/-- The clauses of a `switch`, with one default at most. -/
inductive OfClauses : List Token → List (Clause Stmt) → Option (List Stmt) → Prop where
  | none {ss} : Separators ss → OfClauses ss [] none
  | case {ss k us values c vs body ws clauses otherwise} : Separators ss → k.kind = .kwCase →
      Commas1 (OfExpr 1) us values → c.kind = .colon → Sequence OfPlain OfBraced vs body →
      OfClauses ws clauses otherwise →
      OfClauses (ss ++ k :: us ++ c :: vs ++ ws) (⟨values, body, k.pos⟩ :: clauses) otherwise
  | default {ss k c us body vs clauses} : Separators ss → k.kind = .kwDefault → c.kind = .colon →
      Sequence OfPlain OfBraced us body → OfClauses vs clauses none →
      OfClauses (ss ++ k :: c :: us ++ vs) clauses (some body)

end

/-! ### Functions and programs -/

/-- Names of parameters and the type they share. -/
inductive OfGroup : List Token → List Param → Prop where
  | typed {us names vs ty} : Commas1 OfBinder us names → OfType vs ty →
      OfGroup (us ++ vs) (names.map fun b => ⟨b.name, ty, b.pos⟩)

/-- Groups of parameters with commas between them. A comma may end the list. -/
inductive OfParams : List Token → List Param → Prop where
  | none : OfParams [] []
  | one {us ps} : OfGroup us ps → OfParams us ps
  | more {us ps c vs qs} : OfGroup us ps → c.kind = .comma → OfParams vs qs →
      OfParams (us ++ c :: vs) (ps ++ qs)

/-- No result type, one, or a list in parentheses. -/
inductive OfResults : List Token → List TypeExpr → Prop where
  | none : OfResults [] []
  | one {us ty} : OfType us ty → OfResults us [ty]
  | list {o us types c} : o.kind = .openParen → Commas OfType us types → c.kind = .closeParen →
      OfResults (o :: us ++ [c]) types

/-- A function, which stands where its name stands. -/
inductive OfFunc : List Token → Stmt → Prop where
  | func {k x o us params c vs results ws body} : k.kind = .kwFunc → x.kind = .identifier →
      o.kind = .openParen → OfParams us params → c.kind = .closeParen → OfResults vs results →
      OfBlock ws body →
      OfFunc (k :: x :: o :: us ++ c :: vs ++ ws) (.func ⟨x.text, params, results, body⟩ x.pos)

/-- What stands at top level besides functions: declarations, short ones included. -/
inductive OfGlobal : List Token → Stmt → Prop where
  | decl {us s} : OfDecl us s → OfGlobal us s
  | short {us names values pos} : OfSimple us (.shortDecl names values pos) →
      OfGlobal us (.shortDecl names values pos)

/-- A program without the end of file. -/
def OfProgram (us : List Token) (p : Program) : Prop := Sequence OfGlobal OfFunc us p.declarations

end Phrase
end Treewalk
