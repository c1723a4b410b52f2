/-
# Reading tokens

The state of the parser is the tokens still to be read and the faults found
so far. A rule of the grammar is an action on this state that succeeds, or
stops at a fault with the place where it shows. Rules that nest take a bound
on the depth of nesting and on the rounds of their loops; the number of
tokens is always enough, and `exhausted` says that a bound was too small.

Key definitions: `GrammarFault`, `Cursor`, `Parser`, `Parser.recovering`.
-/
import Treewalk.Diagnostic
import Treewalk.Token

namespace Treewalk

/-- What can be wrong with a sequence of tokens. -/
inductive GrammarFault where
  /-- Another token was needed, named by its label. -/
  | expected (label found : String)
  | unexpected (found : String)
  | statementEnd (found : String)
  | typeExpected (found : String)
  | notADeclaration (found : String)
  | untypedVariable (name : String)
  | nestedFunction (name : String)
  | untypedParameter (name : String)
  | unusedExpression
  | notAssignable
  | addressOfNonVariable
  | qualifiedNameNotCalled (name : String)
  | secondDefault
  deriving DecidableEq, Repr

def GrammarFault.message : GrammarFault → String
  | expected label found => s!"expected {label}, found '{found}'"
  | unexpected found => s!"unexpected token '{found}'"
  | statementEnd found => s!"unexpected '{found}' at end of statement"
  | typeExpected found => s!"expected type, found '{found}'"
  | notADeclaration found => s!"non-declaration statement outside function body: '{found}'"
  | untypedVariable name => s!"variable '{name}' needs a type or an initial value"
  | nestedFunction name => s!"function declarations are only allowed at top level: '{name}'"
  | untypedParameter name => s!"missing type for parameter '{name}'"
  | unusedExpression => "expression is evaluated but not used"
  | notAssignable =>
    "cannot assign to this expression, expected a variable, '*pointer' or an array element"
  | addressOfNonVariable => "'&' can only be applied to a variable name"
  | qualifiedNameNotCalled name => s!"qualified name '{name}' can only be used as a function call"
  | secondDefault => "only one 'default' clause is allowed in a switch"

def GrammarFault.diagnostic (f : GrammarFault) (pos : Position) : Diagnostic :=
  ⟨.syntactic, f.message, pos⟩

/-- The tokens to be read, and the faults found in those already read. -/
structure Cursor where
  tokens : List Token
  faults : Array (GrammarFault × Position)

/-- Why a rule stopped. -/
inductive Halt where
  | fault (f : GrammarFault) (pos : Position)
  /-- The bound on nesting or on rounds was too small. -/
  | exhausted

abbrev Parser := EStateM Halt Cursor

namespace Cursor

/-- The token at hand; the end of the file once all are read. -/
def current (c : Cursor) : Token := c.tokens.headD (.endOfFile .origin)

/-- The token `k` places behind the one at hand. -/
def ahead (c : Cursor) (k : Nat) : Token := (c.tokens.drop k).headD (.endOfFile .origin)

def advance (c : Cursor) : Cursor := { c with tokens := c.tokens.tail }

def record (c : Cursor) (f : GrammarFault) (pos : Position) : Cursor :=
  { c with faults := c.faults.push (f, pos) }

def skipSemicolons (c : Cursor) : Cursor :=
  { c with tokens := c.tokens.dropWhile (·.kind == .semicolon) }

end Cursor

namespace Parser

def current : Parser Token := return (← get).current

def kind : Parser Token.Kind := return (← get).current.kind

/-- Reads one token. -/
def advance : Parser Token := do
  let t ← current
  modify Cursor.advance
  return t

/-- Stops at the token at hand. -/
def fail {α : Type} (f : GrammarFault) : Parser α := do
  throw (.fault f (← current).pos)

/-- Stops at a place that has already been read. -/
def failAt {α : Type} (f : GrammarFault) (pos : Position) : Parser α := throw (.fault f pos)

def exhausted {α : Type} : Parser α := throw .exhausted

/-- Reads a token of the given kind; any other is left where it is. -/
def expect (k : Token.Kind) : Parser Token := do
  if (← kind) = k then advance else fail (.expected k.label (← current).describe)

def skipSemicolons : Parser Unit := modify Cursor.skipSemicolons

/-- Reads the separator after a statement. A closing brace, a further clause and the end of the
file end a statement too, and are left. -/
def statementEnd : Parser Unit := do
  match ← kind with
  | .semicolon => let _ ← advance
  | .closeBrace | .kwCase | .kwDefault | .endOfFile => return ()
  | _ => fail (.statementEnd (← current).describe)

/-- The tokens behind a bad statement: up to its separator, which is dropped, or to a token that
closes the list it stands in. Braces opened on the way hide both. -/
def skipStatement (closing : List Token.Kind) : Nat → List Token → List Token
  | _, [] => []
  | depth, t :: rest =>
    if t.kind = .endOfFile then t :: rest
    else if depth = 0 ∧ t.kind ∈ closing then t :: rest
    else if t.kind = .openBrace then skipStatement closing (depth + 1) rest
    else if t.kind = .closeBrace then skipStatement closing (depth - 1) rest
    else if t.kind = .semicolon ∧ depth = 0 then rest
    else skipStatement closing depth rest

/-- The tokens at which reading goes on after a fault. At least one token is left behind since
`start`, so that a stray token is never met twice. -/
def resume (closing : List Token.Kind) (start tokens : List Token) : List Token :=
  let rest := skipStatement closing 0 tokens
  match rest with
  | t :: after => if rest.length = start.length ∧ t.kind ≠ .endOfFile then after else rest
  | [] => []

/-- Runs a rule; a fault is recorded and its statement skipped. -/
def recovering {α : Type} (closing : List Token.Kind) (p : Parser α) : Parser (Option α) := fun c =>
  match p c with
  | .ok a c' => .ok (some a) c'
  | .error (.fault f pos) c' =>
    .ok none { (c'.record f pos) with tokens := resume closing c.tokens c'.tokens }
  | .error .exhausted c' => .error .exhausted c'

end Parser

end Treewalk
